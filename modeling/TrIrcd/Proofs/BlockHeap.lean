import TrIrcd.Lib.Run
import TrIrcd.Proofs.Dlinks
import TrIrcd.Src.Blalloc

/-!
# The block allocator hands out no element twice

`Sound s live cs V` says what the heap looks like between two calls: the chain
is `cs`, the lists are `V`, and the elements of a block are those of its two
lists. Every counter is the length of a list, and `live` is what the used lists
hold. Taking an element moves its node from one list of a block to the other,
giving it back moves it back, a new block comes with all its nodes free, and a
block without a used one can leave.

That is enough for the claims of a caller (`HeapRun.Correct`): no address is
handed out twice, and none is in memory that went back to the system.
-/

namespace TrIrcd

open Function (update)
open TrIrcd.Lib

/-! ## Lengths and nodes -/

theorem length_flatMap_update {cs : List Nat} {w : Nat} {f g : Nat → List Nat} (hnd : cs.Nodup)
    (hw : w ∈ cs) (h : ∀ b ∈ cs, b ≠ w → g b = f b) :
    (cs.flatMap g).length + (f w).length = (cs.flatMap f).length + (g w).length := by
  induction cs with
  | nil => cases hw
  | cons c cs ih =>
      obtain ⟨hc, hnd⟩ := List.nodup_cons.mp hnd
      simp only [List.flatMap_cons, List.length_append]
      rcases List.mem_cons.mp hw with rfl | hw
      · have hrest : cs.flatMap g = cs.flatMap f := List.flatMap_congr fun b hb =>
          h b (List.mem_cons_of_mem _ hb) fun e => hc (e ▸ hb)
        rw [hrest]
        omega
      · have hcw : c ≠ w := fun e => hc (e ▸ hw)
        have := congrArg List.length (h c (List.mem_cons_self ..) hcw)
        have := ih hnd hw fun b hb => h b (List.mem_cons_of_mem _ hb)
        omega

/-- The lists, when other memory comes or goes. -/
theorem Represents.withUsed {ι α : Type} {D : Dlinks ι α} {V : ι → List Nat}
    (h : Represents D V) {used : List Nat} (hu : ∀ l, ∀ m ∈ V l, m ∈ used) :
    Represents { D with used := used } V := ⟨h.dlist, h.apart, hu _ _⟩

namespace HeapSt

variable {s s' : HeapSt}

theorem stride_pos (s : HeapSt) : 0 < s.stride := Nat.lt_add_left _ (by decide)

/-- A node and its element lie in the memory of the block, and not at its
end. -/
theorem mem_nodesFrom {elems m : Nat} (hm : m ∈ s.nodesFrom elems) :
    elems ≤ m ∧ m + 2 * s.stride ≤ elems + (s.bh.elemsPerBlock + 1) * s.stride := by
  obtain ⟨i, hi, rfl⟩ := List.mem_range'.mp hm
  have hle : (i + 2) * s.stride ≤ (s.bh.elemsPerBlock + 1) * s.stride :=
    Nat.mul_le_mul_right _ (by omega)
  rw [Nat.add_mul] at hle
  rw [Nat.mul_comm s.stride i]
  omega

/-! ## A new block -/

/-- `newblock` puts its nodes on the free list one after the other. -/
theorem setupBlocks_lists (b n : Nat) {d : Nat} (hd : 0 < d) :
    ∀ {offset : Nat} {s : HeapSt} {V : BlockList → List Nat}, s.stride = d →
      Represents s.lists V →
      (∀ m ∈ List.range' offset n d, m ∈ s.lists.used ∧ ∀ l, m ∉ V l) →
      let nodes := List.range' offset n d
      let s' := setupBlocks b n offset s
      s'.bh = s.bh ∧ s'.block = s.block ∧
        Represents s'.lists (update V (.free b) (nodes.reverse ++ V (.free b))) ∧
        (∀ m ∈ nodes, s'.memblock m = some b ∧ s'.lists.data m = m + sizeofMemBlock) ∧
        ∀ m, m ∉ nodes → s'.memblock m = s.memblock m ∧ s'.lists.data m = s.lists.data m := by
  induction n with
  | zero =>
      intro offset s V _ h _
      exact ⟨rfl, rfl, by simpa [setupBlocks] using h, nofun, fun _ _ => ⟨rfl, rfl⟩⟩
  | succ n ih =>
      intro offset s V hs h hfresh
      have hnd := List.nodup_range' (s := offset) (n := n + 1) d hd
      rw [List.range'_succ] at hfresh hnd ⊢
      obtain ⟨hoff, hnd⟩ := List.nodup_cons.mp hnd
      obtain ⟨⟨hu, hV⟩, hfresh⟩ := List.forall_mem_cons.mp hfresh
      have hadd := h.add hV hu (offset + sizeofMemBlock) (.free b)
      obtain ⟨hbh, hblock, hlists, hin, hout⟩ := @ih (offset + d)
        { s with
          memblock := update s.memblock offset (some b)
          lists := dlinkAdd (offset + sizeofMemBlock) offset (.free b) s.lists } _ hs hadd
        (fun m hm => by
          obtain ⟨hmu, hmV⟩ := hfresh m hm
          refine ⟨by rw [dlinkAdd_used]; exact hmu, fun l hl => ?_⟩
          rcases mem_update_cons.mp hl with ⟨rfl, -⟩ | hl
          · exact hoff hm
          · exact hmV l hl)
      simp only [dlinkAdd_data] at hout
      have hstep : setupBlocks b (n + 1) offset s = setupBlocks b n (offset + d)
          { s with
            memblock := update s.memblock offset (some b)
            lists := dlinkAdd (offset + sizeofMemBlock) offset (.free b) s.lists } := by
        rw [setupBlocks, hs]
      rw [hstep]
      refine ⟨hbh, hblock, ?_, fun m hm => ?_, fun m hm => ?_⟩
      · rw [Function.update_idem, Function.update_self] at hlists
        rw [List.reverse_cons, List.append_assoc]
        exact hlists
      · rcases List.mem_cons.mp hm with rfl | hm
        · have hself := hout m hoff
          rwa [Function.update_self, Function.update_self] at hself
        · exact hin m hm
      · obtain ⟨hne, hm⟩ := not_or.mp (fun e => hm (List.mem_cons.mpr e))
        have hother := hout m hm
        rwa [Function.update_of_ne hne, Function.update_of_ne hne] at hother

end HeapSt

/-! ## The invariant -/

/-- The memory of two blocks does not overlap. -/
def Block.Disjoint (blk blk' : Block) : Prop :=
  blk.elems + blk.allocSize ≤ blk'.elems ∨ blk'.elems + blk'.allocSize ≤ blk.elems

namespace HeapSt

variable {s s' : HeapSt} {live live' cs : List Nat} {V V' : BlockList → List Nat}

/-- The chain of blocks, and the memory they have. -/
structure Layout (s : HeapSt) (cs : List Nat) : Prop where
  pos : 0 < s.bh.elemsPerBlock
  chain : IsChain (fun b => (s.block b).next) s.bh.base cs
  count : s.bh.blocksAllocated = cs.length
  size : ∀ b ∈ cs, (s.block b).allocSize = (s.bh.elemsPerBlock + 1) * s.stride
  disjoint : ∀ b ∈ cs, ∀ b' ∈ cs, b ≠ b' → (s.block b).Disjoint (s.block b')
  node : ∀ b ∈ cs, ∀ m ∈ s.nodesFrom (s.block b).elems,
    s.memblock m = some b ∧ s.lists.data m = m + sizeofMemBlock

/-- The lists of the blocks, and what is handed out. -/
structure Sound (s : HeapSt) (live cs : List Nat) (V : BlockList → List Nat) : Prop
    extends Layout s cs where
  lists : Represents s.lists V
  foreign : ∀ b, b ∉ cs → V (.free b) = [] ∧ V (.used b) = []
  nodes : ∀ b ∈ cs, (V (.free b) ++ V (.used b)).Perm (s.nodesFrom (s.block b).elems)
  free : ∀ b ∈ cs, (s.block b).freeElems = (V (.free b)).length
  total : s.bh.freeElems = (cs.flatMap fun b => V (.free b)).length
  live : ∀ ptr, ptr ∈ live ↔ ∃ b ∈ cs, ∃ m ∈ V (.used b), ptr = m + sizeofMemBlock

theorem Layout.nodup (h : Layout s cs) : cs.Nodup := h.chain.nodup

theorem Layout.owned_eq (h : Layout s cs) : s.owned = cs :=
  walk_eq h.chain (by rw [h.count]; exact Nat.le_refl _)

/-- A node lies in the memory of its block, and not at its end. -/
theorem Layout.node_mem (h : Layout s cs) {b m : Nat} (hb : b ∈ cs)
    (hm : m ∈ s.nodesFrom (s.block b).elems) :
    (s.block b).elems ≤ m ∧
      m + 2 * s.stride ≤ (s.block b).elems + (s.block b).allocSize := by
  rw [h.size b hb]
  exact mem_nodesFrom hm

theorem Layout.holds (h : Layout s cs) {b m : Nat} (hb : b ∈ cs)
    (hm : m ∈ s.nodesFrom (s.block b).elems) : s.Holds b (m + sizeofMemBlock) := by
  obtain ⟨hle, hend⟩ := h.node_mem hb hm
  rw [stride] at hend
  rw [Holds]
  omega

/-- No other block holds the element of a node. -/
theorem Layout.holds_unique (h : Layout s cs) {b b' m : Nat} (hb : b ∈ cs) (hb' : b' ∈ cs)
    (hm : m ∈ s.nodesFrom (s.block b).elems) (hne : b ≠ b') :
    ¬s.Holds b' (m + sizeofMemBlock) := by
  obtain ⟨hle, hend⟩ := h.node_mem hb hm
  have hpos : 0 < sizeofMemBlock := by decide
  rw [stride] at hend
  rintro ⟨hle', hend'⟩
  rcases h.disjoint b hb b' hb' hne with hd | hd <;> omega

/-- Other counts of free elements, and other lists of the same nodes. -/
theorem Layout.recount (h : Layout s cs) (w : Nat) (k j : Int) {L : Dlinks BlockList Nat}
    (hL : L.data = s.lists.data) :
    Layout { s with
      bh := { s.bh with freeElems := k }
      block := update s.block w { s.block w with freeElems := j }
      lists := L } cs := by
  have hblock : ∀ b, (update s.block w { s.block w with freeElems := j } b).next =
        (s.block b).next ∧
      (update s.block w { s.block w with freeElems := j } b).elems = (s.block b).elems ∧
      (update s.block w { s.block w with freeElems := j } b).allocSize =
        (s.block b).allocSize := by
    intro b
    by_cases hb : b = w
    · rw [hb, Function.update_self]
      exact ⟨rfl, rfl, rfl⟩
    · rw [Function.update_of_ne hb]
      exact ⟨rfl, rfl, rfl⟩
  refine ⟨h.pos, h.chain.congr fun b _ => (hblock b).1, h.count, fun b hb => ?_,
    fun b hb b' hb' hne => ?_, fun b hb m hm => ?_⟩
  · exact (hblock b).2.2.trans (h.size b hb)
  · have hd := h.disjoint b hb b' hb' hne
    simp only [Block.Disjoint, hblock] at hd ⊢
    exact hd
  · simp only [hblock] at hm
    simp only [hL]
    exact h.node b hb m hm

theorem Sound.mem_block (h : Sound s live cs V) {l : BlockList} {m : Nat} (hm : m ∈ V l) :
    ∃ b ∈ cs, m ∈ s.nodesFrom (s.block b).elems ∧ (l = .free b ∨ l = .used b) := by
  cases l with
  | free b =>
      by_cases hb : b ∈ cs
      · exact ⟨b, hb, (h.nodes b hb).mem_iff.mp (List.mem_append_left _ hm), .inl rfl⟩
      · rw [(h.foreign b hb).1] at hm
        cases hm
  | used b =>
      by_cases hb : b ∈ cs
      · exact ⟨b, hb, (h.nodes b hb).mem_iff.mp (List.mem_append_right _ hm), .inr rfl⟩
      · rw [(h.foreign b hb).2] at hm
        cases hm

/-- Nodes of one block change lists. -/
theorem Sound.relist (h : Sound s live cs V) {w : Nat} (hw : w ∈ cs) {L : Dlinks BlockList Nat}
    (hL : L.data = s.lists.data) (hV : Represents L V')
    (hoff : ∀ b, b ≠ w → V' (.free b) = V (.free b) ∧ V' (.used b) = V (.used b))
    (hperm : (V' (.free w) ++ V' (.used w)).Perm (V (.free w) ++ V (.used w)))
    {d : Int} (hd : ((V' (.free w)).length : Int) = (V (.free w)).length + d)
    (hlive : ∀ ptr, ptr ∈ live' ↔ ∃ b ∈ cs, ∃ m ∈ V' (.used b), ptr = m + sizeofMemBlock) :
    Sound { s with
      bh := { s.bh with freeElems := s.bh.freeElems + d }
      block := update s.block w { s.block w with freeElems := (s.block w).freeElems + d }
      lists := L } live' cs V' where
  toLayout := h.toLayout.recount w _ _ hL
  lists := hV
  foreign b hb := by
    have hbw : b ≠ w := fun e => hb (e ▸ hw)
    rw [(hoff b hbw).1, (hoff b hbw).2]
    exact h.foreign b hb
  nodes b hb := by
    show (V' (.free b) ++ V' (.used b)).Perm (s.nodesFrom (update s.block w _ b).elems)
    by_cases hbw : b = w
    · subst hbw
      rw [Function.update_self]
      exact hperm.trans (h.nodes b hb)
    · rw [Function.update_of_ne hbw, (hoff b hbw).1, (hoff b hbw).2]
      exact h.nodes b hb
  free b hb := by
    show (update s.block w _ b).freeElems = _
    by_cases hbw : b = w
    · subst hbw
      rw [Function.update_self, hd, ← h.free b hb]
    · rw [Function.update_of_ne hbw, (hoff b hbw).1]
      exact h.free b hb
  total := by
    have hsum := @length_flatMap_update cs w (fun b => V (.free b)) (fun b => V' (.free b))
      h.nodup hw fun b _ hbw => (hoff b hbw).1
    show s.bh.freeElems + d = _
    rw [h.total]
    omega
  live := hlive

/-! ## What the functions do -/

/-- Memory that the system can answer with: none of it belongs to a block. -/
def Fresh (s : HeapSt) (new : NewMem) : Prop :=
  new.block ∉ s.owned ∧ ∀ b ∈ s.owned, (s.freshBlock new.elems).Disjoint (s.block b)

instance (blk blk' : Block) : Decidable (blk.Disjoint blk') :=
  inferInstanceAs (Decidable (_ ∨ _))

instance (s : HeapSt) (new : NewMem) : Decidable (s.Fresh new) :=
  inferInstanceAs (Decidable (_ ∧ _))

theorem Block.Disjoint.symm {blk blk' : Block} (h : blk.Disjoint blk') : blk'.Disjoint blk :=
  Or.symm h

theorem length_nodesFrom (s : HeapSt) (elems : Nat) :
    (s.nodesFrom elems).length = s.bh.elemsPerBlock := List.length_range'

/-- A block with all its nodes free, in front of the chain. -/
theorem Sound.grow (h : Sound s live cs V) {nb elems : Nat} (hb : nb ∉ cs)
    (hdis : ∀ b ∈ cs, (s.freshBlock elems).Disjoint (s.block b))
    (hnew : ∀ m ∈ s.nodesFrom elems, ∀ l, m ∉ V l) {memblock : Nat → Option Nat}
    {lists : Dlinks BlockList Nat}
    (hrep : Represents lists (update V (.free nb) (s.nodesFrom elems).reverse))
    (hin : ∀ m ∈ s.nodesFrom elems, memblock m = some nb ∧ lists.data m = m + sizeofMemBlock)
    (hout : ∀ m, m ∉ s.nodesFrom elems →
      memblock m = s.memblock m ∧ lists.data m = s.lists.data m) :
    Sound
      { bh := { s.bh with
          blocksAllocated := s.bh.blocksAllocated + 1
          freeElems := s.bh.freeElems + s.bh.elemsPerBlock
          base := some nb }
        block := update s.block nb (s.freshBlock elems)
        memblock := memblock
        lists := lists } live (nb :: cs) (update V (.free nb) (s.nodesFrom elems).reverse) := by
  have hoff : ∀ b ∈ cs, b ≠ nb := fun b hbc e => hb (e ▸ hbc)
  have hused := (h.foreign nb hb).2
  exact {
    pos := h.pos
    chain := by
      refine ⟨rfl, ?_⟩
      simp only [Function.update_self]
      exact h.chain.congr fun b hbc => by rw [Function.update_of_ne (hoff b hbc)]
    count := by
      simp only [h.count, List.length_cons]
      omega
    size := fun b hbc => by
      rcases List.mem_cons.mp hbc with rfl | hbc
      · simp only [Function.update_self]
        rfl
      · simp only [Function.update_of_ne (hoff b hbc)]
        exact h.size b hbc
    disjoint := fun b hbc b' hbc' hne => by
      rcases List.mem_cons.mp hbc with rfl | hold <;>
        rcases List.mem_cons.mp hbc' with rfl | hold'
      · exact absurd rfl hne
      · simp only [Function.update_self, Function.update_of_ne (hoff b' hold')]
        exact hdis b' hold'
      · simp only [Function.update_self, Function.update_of_ne (hoff b hold)]
        exact (hdis b hold).symm
      · simp only [Function.update_of_ne (hoff b hold), Function.update_of_ne (hoff b' hold')]
        exact h.disjoint b hold b' hold' hne
    node := fun b hbc m hm => by
      rcases List.mem_cons.mp hbc with rfl | hbc
      · simp only [Function.update_self] at hm
        exact hin m hm
      · simp only [Function.update_of_ne (hoff b hbc)] at hm
        have hmnew : m ∉ s.nodesFrom elems := fun hmn => by
          obtain hml := (h.nodes b hbc).mem_iff.mpr hm
          rcases List.mem_append.mp hml with hml | hml
          · exact hnew m hmn _ hml
          · exact hnew m hmn _ hml
        obtain ⟨hmem, hdata⟩ := hout m hmnew
        obtain ⟨hown, hold⟩ := h.node b hbc m hm
        exact ⟨hmem.trans hown, hdata.trans hold⟩
    lists := hrep
    foreign := fun b hbc => by
      obtain ⟨hne, hbc⟩ := not_or.mp fun e => hbc (List.mem_cons.mpr e)
      simpa [Function.update, hne] using h.foreign b hbc
    nodes := fun b hbc => by
      rcases List.mem_cons.mp hbc with rfl | hbc
      · simp only [Function.update_self]
        rw [Function.update_of_ne BlockList.noConfusion, hused, List.append_nil]
        exact List.reverse_perm _
      · show List.Perm _ (s.nodesFrom (update s.block nb _ b).elems)
        rw [Function.update_of_ne (hoff b hbc)]
        simpa [Function.update, hoff b hbc] using h.nodes b hbc
    free := fun b hbc => by
      rcases List.mem_cons.mp hbc with rfl | hbc
      · simp only [Function.update_self]
        rw [List.length_reverse, length_nodesFrom]
        rfl
      · simp only [Function.update_of_ne (hoff b hbc)]
        simpa [Function.update, hoff b hbc] using h.free b hbc
    total := by
      have hrest : (cs.flatMap fun b => update V (.free nb) (s.nodesFrom elems).reverse
          (.free b)) = cs.flatMap fun b => V (.free b) :=
        List.flatMap_congr fun b hbc => Function.update_of_ne (by simpa using hoff b hbc) ..
      simp only [List.flatMap_cons, List.length_append, hrest, Function.update_self,
        List.length_reverse, length_nodesFrom, h.total]
      omega
    live := fun ptr => by
      rw [h.live ptr]
      simp [hused] }

theorem Sound.newblock (h : Sound s live cs V) {new : NewMem} (hfresh : s.Fresh new) :
    ∃ s', s.newblock (some new) = some s' ∧
      s'.bh.freeElems = s.bh.freeElems + s.bh.elemsPerBlock ∧
      Sound s' live (new.block :: cs)
        (update V (.free new.block) (s.nodesFrom new.elems).reverse) := by
  obtain ⟨hb, hdis⟩ := hfresh
  rw [h.owned_eq] at hb hdis
  obtain ⟨hfree, hused⟩ := h.foreign _ hb
  have hclear := (h.lists.clear (.free new.block)).clear (.used new.block)
  rw [show update V (.free new.block) [] = V from Function.update_eq_self_iff.mpr hfree.symm,
    show update V (.used new.block) [] = V from Function.update_eq_self_iff.mpr hused.symm]
    at hclear
  have hnew : ∀ m ∈ s.nodesFrom new.elems, ∀ l, m ∉ V l := by
    intro m hm l hl
    obtain ⟨b, hbc, hmb, -⟩ := h.mem_block hl
    obtain ⟨hle, hend⟩ := h.node_mem hbc hmb
    obtain ⟨hle', hend'⟩ := mem_nodesFrom hm
    have hpos := s.stride_pos
    rcases hdis b hbc with hd | hd
    · have : new.elems + (s.bh.elemsPerBlock + 1) * s.stride ≤ (s.block b).elems := hd
      omega
    · have : (s.block b).elems + (s.block b).allocSize ≤ new.elems := hd
      omega
  have hlists := @Represents.withUsed _ _ _ _ hclear (s.nodesFrom new.elems ++ s.lists.used)
    fun l m hm => List.mem_append_right _ (h.lists.used hm)
  let s₁ : HeapSt := { s with
    block := update s.block new.block (s.freshBlock new.elems)
    lists := { clearDlinkList (.used new.block) (clearDlinkList (.free new.block) s.lists) with
      used := s.nodesFrom new.elems ++ s.lists.used } }
  obtain ⟨hbh, hblock, hrep, hin, hout⟩ := @setupBlocks_lists new.block s.bh.elemsPerBlock _
    s.stride_pos new.elems s₁ V rfl hlists
    fun m hm => ⟨List.mem_append_left _ hm, hnew m hm⟩
  rw [hfree, List.append_nil] at hrep
  have hgrow := h.grow hb hdis hnew hrep hin hout
  refine ⟨_, rfl, congrArg (fun bh : BlockHeap => bh.freeElems + bh.elemsPerBlock) hbh, ?_⟩
  show Sound (addBlock new.block (setupBlocks new.block s.bh.elemsPerBlock new.elems s₁)) _ _ _
  generalize setupBlocks new.block s.bh.elemsPerBlock new.elems s₁ = s₂ at *
  obtain ⟨bh, block, memblock, lists⟩ := s₂
  obtain rfl : bh = s.bh := hbh
  obtain rfl : block = update s.block new.block (s.freshBlock new.elems) := hblock
  exact hgrow

/-- A node on a free list is on no used list: its address is not handed out. -/
theorem Sound.notMem_live (h : Sound s live cs V) {w m : Nat} (hm : m ∈ V (.free w)) :
    m + sizeofMemBlock ∉ live := by
  intro hl
  obtain ⟨b, -, m', hm', heq⟩ := (h.live _).mp hl
  obtain rfl : m = m' := Nat.add_right_cancel heq
  exact BlockList.noConfusion (h.lists.apart hm hm')

theorem Sound.take (h : Sound s live cs V) {w : Nat} (hw : w ∈ cs)
    (hpos : 0 < (s.block w).freeElems) :
    ∃ ptr s' V', s.take w = .ok (some ptr, s') ∧ ptr ∉ live ∧ s'.Holds w ptr ∧
      Sound s' (ptr :: live) cs V' := by
  rw [h.free w hw] at hpos
  cases hv : V (.free w) with
  | nil =>
      rw [hv] at hpos
      exact absurd hpos (by decide)
  | cons m xs =>
      have hm : m ∈ V (.free w) := by
        rw [hv]
        exact List.mem_cons_self ..
      have hnode := (h.nodes w hw).mem_iff.mp (List.mem_append_left _ hm)
      obtain ⟨-, hdata⟩ := h.node w hw m hnode
      have hhead : s.lists.head (.free w) = some m := by
        rw [(h.lists.dlist (.free w)).1.head_eq, hv]
        rfl
      obtain ⟨-, -, -, hxs⟩ := h.lists.threaded.links (show V (.free w) = [] ++ m :: xs from hv)
      have hdel := h.lists.delete (show V (.free w) = [] ++ m :: xs from hv)
      rw [List.nil_append] at hdel
      have hoff : ∀ l, m ∉ update V (.free w) xs l := by
        intro l
        by_cases hl : l = .free w
        · rw [hl, Function.update_self]
          exact hxs
        · rw [Function.update_of_ne hl]
          exact h.lists.apart.notMem hm l hl
      have hadd := hdel.add hoff (by rw [dlinkDelete_used]; exact h.lists.used hm)
        (m + sizeofMemBlock) (.used w)
      rw [Function.update_of_ne (a := BlockList.used w) BlockList.noConfusion] at hadd
      have hlists : (dlinkAdd (m + sizeofMemBlock) m (.used w)
          (dlinkDelete m (.free w) s.lists)).data = s.lists.data := by
        rw [dlinkAdd_data, dlinkDelete_data, ← hdata, Function.update_eq_self]
      have hmem : ∀ b m', m' ∈ update (update V (.free w) xs) (.used w) (m :: V (.used w))
          (.used b) ↔ (m' = m ∧ b = w) ∨ m' ∈ V (.used b) := by
        intro b m'
        by_cases hb : b = w
        · subst hb
          simp [Function.update]
        · simp [Function.update, hb]
      refine ⟨m + sizeofMemBlock, _, _, ?_, h.notMem_live hm, ?_, h.relist hw hlists hadd
        (d := -1) (fun b hb => ?_) ?_ ?_ fun ptr => ?_⟩
      · simp only [HeapSt.take, hhead, dlinkDelete_data, hdata, Int.sub_eq_add_neg]
      · simpa [Holds] using h.toLayout.holds hw hnode
      · simp [Function.update, hb]
      · simp [Function.update, hv, List.perm_middle]
      · rw [Function.update_of_ne BlockList.noConfusion, Function.update_self, hv,
          List.length_cons]
        omega
      · simp only [List.mem_cons, h.live, hmem]
        constructor
        · rintro (rfl | ⟨b, hb, m', hm', rfl⟩)
          · exact ⟨w, hw, m, .inl ⟨rfl, rfl⟩, rfl⟩
          · exact ⟨b, hb, m', .inr hm', rfl⟩
        · rintro ⟨b, hb, m', ⟨rfl, rfl⟩ | hm', rfl⟩
          · exact .inl rfl
          · exact .inr ⟨b, hb, m', hm', rfl⟩

theorem Sound.giveBack (h : Sound s live cs V) {ptr : Nat} (hp : ptr ∈ live) :
    ∃ s' V', s.blockHeapFree ptr = (0, s') ∧ Sound s' (live.filter (· ≠ ptr)) cs V' := by
  obtain ⟨w, hw, m, hm, rfl⟩ := (h.live ptr).mp hp
  have hnode := (h.nodes w hw).mem_iff.mp (List.mem_append_right _ hm)
  obtain ⟨howner, hdata⟩ := h.node w hw m hnode
  obtain ⟨as, bs, hv⟩ := List.append_of_mem hm
  obtain ⟨-, -, has, hbs⟩ := h.lists.threaded.links hv
  have hout : m ∉ as ++ bs := fun e => (List.mem_append.mp e).elim has hbs
  have hdel := h.lists.delete hv
  have hoff : ∀ l, m ∉ update V (.used w) (as ++ bs) l := by
    intro l
    by_cases hl : l = .used w
    · rw [hl, Function.update_self]
      exact hout
    · rw [Function.update_of_ne hl]
      exact h.lists.apart.notMem hm l hl
  have hadd := hdel.add hoff (by rw [dlinkDelete_used]; exact h.lists.used hm)
    (m + sizeofMemBlock) (.free w)
  rw [Function.update_of_ne (a := BlockList.free w) BlockList.noConfusion] at hadd
  have hlists : (dlinkAdd (m + sizeofMemBlock) m (.free w)
      (dlinkDelete m (.used w) s.lists)).data = s.lists.data := by
    rw [dlinkAdd_data, dlinkDelete_data, ← hdata, Function.update_eq_self]
  have hmem : ∀ b m', m' ∈ update (update V (.used w) (as ++ bs)) (.free w) (m :: V (.free w))
      (.used b) ↔ m' ≠ m ∧ m' ∈ V (.used b) := by
    intro b m'
    rw [Function.update_of_ne BlockList.noConfusion]
    by_cases hb : b = w
    · subst hb
      rw [Function.update_self, hv]
      constructor
      · intro hm'
        exact ⟨fun e => hout (e ▸ hm'), by simpa [or_left_comm] using Or.inr hm'⟩
      · simp +contextual
    · rw [Function.update_of_ne (by simpa using hb)]
      refine (and_iff_right_of_imp ?_).symm
      rintro hm' rfl
      exact hb (BlockList.used.inj (h.lists.apart hm' hm))
  refine ⟨_, _, ?_, h.relist hw hlists hadd (d := 1) (fun b hb => ?_) ?_ ?_ fun ptr => ?_⟩
  · simp only [blockHeapFree, Nat.add_sub_cancel, howner]
    rw [if_neg (by simp [sizeofMemBlock])]
  · simp [Function.update, hb]
  · simp only [Function.update_self]
    rw [Function.update_of_ne BlockList.noConfusion, Function.update_self, hv]
    simpa using (@List.perm_middle _ m (V (.free w) ++ as) bs).symm
  · simp [Function.update]
  · simp only [List.mem_filter, h.live, hmem, decide_eq_true_eq]
    constructor
    · rintro ⟨⟨b, hb, m', hm', rfl⟩, hne⟩
      exact ⟨b, hb, m', ⟨fun e => hne (by rw [e]), hm'⟩, rfl⟩
    · rintro ⟨b, hb, m', ⟨hne, hm'⟩, rfl⟩
      exact ⟨⟨b, hb, m', hm', rfl⟩, fun e => hne (Nat.add_right_cancel e)⟩

/-! ## Garbage -/

/-- The heap without a block, as a turn of the loop leaves it. -/
def dropBlock (last : Option Nat) (w : Nat) (s : HeapSt) : HeapSt :=
  let s' := (s.freeBlock w).unlinkBlock last w
  { s' with bh := { s'.bh with
      blocksAllocated := s'.bh.blocksAllocated - 1
      freeElems := s'.bh.freeElems - s'.bh.elemsPerBlock } }

theorem dropBlock_block {last : Option Nat} {w : Nat} (b : Nat) :
    ((s.dropBlock last w).block b).elems = (s.block b).elems ∧
      ((s.dropBlock last w).block b).allocSize = (s.block b).allocSize ∧
      ((s.dropBlock last w).block b).freeElems = (s.block b).freeElems := by
  cases last with
  | none => exact ⟨rfl, rfl, rfl⟩
  | some l =>
      show (update s.block l _ b).elems = _ ∧ (update s.block l _ b).allocSize = _ ∧
        (update s.block l _ b).freeElems = _
      by_cases hb : b = l
      · rw [hb, Function.update_self]
        exact ⟨rfl, rfl, rfl⟩
      · rw [Function.update_of_ne hb]
        exact ⟨rfl, rfl, rfl⟩

theorem dropBlock_rest (last : Option Nat) (w : Nat) :
    (s.dropBlock last w).bh.elemSize = s.bh.elemSize ∧
      (s.dropBlock last w).bh.elemsPerBlock = s.bh.elemsPerBlock ∧
      (s.dropBlock last w).bh.blocksAllocated = s.bh.blocksAllocated - 1 ∧
      (s.dropBlock last w).bh.freeElems = s.bh.freeElems - s.bh.elemsPerBlock ∧
      (s.dropBlock last w).memblock = s.memblock ∧
      (s.dropBlock last w).lists = (s.freeBlock w).lists := by
  cases last with
  | none => exact ⟨rfl, rfl, rfl, rfl, rfl, rfl⟩
  | some l => exact ⟨rfl, rfl, rfl, rfl, rfl, rfl⟩

theorem Layout.dropBlock_chain {as bs : List Nat} {w : Nat} (h : Layout s (as ++ w :: bs)) :
    IsChain (fun b => ((s.dropBlock as.getLast? w).block b).next)
      (s.dropBlock as.getLast? w).bh.base (as ++ bs) := by
  have hun := h.chain.unlink
  cases hl : as.getLast? with
  | none =>
      rw [hl] at hun
      exact hun
  | some l =>
      rw [hl] at hun
      refine hun.congr fun b _ => ?_
      show (update s.block l _ b).next = update (fun b => (s.block b).next) l _ b
      by_cases hb : b = l
      · rw [hb, Function.update_self, Function.update_self]
        rfl
      · rw [Function.update_of_ne hb, Function.update_of_ne hb]

/-- A block with no used node leaves. -/
theorem Sound.dropBlock {as bs : List Nat} {w : Nat} (h : Sound s live (as ++ w :: bs) V)
    (hused : V (.used w) = []) :
    Sound (s.dropBlock as.getLast? w) live (as ++ bs) (update V (.free w) []) := by
  have hw : w ∈ as ++ w :: bs := by simp
  have hnd := h.nodup
  have hperm : (as ++ w :: bs).Perm (w :: (as ++ bs)) := List.perm_middle
  obtain ⟨hout, -⟩ := List.nodup_cons.mp (hperm.nodup_iff.mp hnd)
  have hsub : ∀ b ∈ as ++ bs, b ∈ as ++ w :: bs ∧ b ≠ w := fun b hb =>
    ⟨hperm.mem_iff.mpr (List.mem_cons_of_mem _ hb), fun e => hout (e ▸ hb)⟩
  obtain ⟨hsize, hper, hcount, htotal, hmemblock, hlists⟩ := @dropBlock_rest s as.getLast? w
  have hstride : (s.dropBlock as.getLast? w).stride = s.stride := by rw [stride, stride, hsize]
  have hnodes : ∀ elems, (s.dropBlock as.getLast? w).nodesFrom elems = s.nodesFrom elems :=
    fun elems => by rw [nodesFrom, nodesFrom, hper, hstride]
  have hblock := @dropBlock_block s as.getLast? w
  have hV : ∀ b, b ≠ w → update V (.free w) [] (.free b) = V (.free b) := fun b hb =>
    Function.update_of_ne (by simpa using hb) ..
  have hVused : ∀ b, update V (.free w) [] (.used b) = V (.used b) := fun b =>
    Function.update_of_ne BlockList.noConfusion ..
  have hlen : (V (.free w)).length = s.bh.elemsPerBlock := by
    have hlen := (h.nodes w hw).length_eq
    rwa [hused, List.append_nil, length_nodesFrom] at hlen
  exact {
    pos := by rw [hper]; exact h.pos
    chain := h.toLayout.dropBlock_chain
    count := by
      rw [hcount, h.count, hperm.length_eq, List.length_cons]
      omega
    size := fun b hb => by
      rw [(hblock b).2.1, hper, hstride]
      exact h.size b (hsub b hb).1
    disjoint := fun b hb b' hb' hne => by
      have hd := h.disjoint b (hsub b hb).1 b' (hsub b' hb').1 hne
      simpa only [Block.Disjoint, hblock] using hd
    node := fun b hb m hm => by
      rw [(hblock b).1, hnodes] at hm
      rw [hmemblock, hlists]
      exact h.node b (hsub b hb).1 m hm
    lists := by
      rw [hlists]
      have hclear := (h.lists.clear (.free w)).clear (.used w)
      rw [Function.update_eq_self_iff.mpr ((hVused w).trans hused).symm] at hclear
      refine hclear.withUsed fun l m hm => ?_
      have hml : m ∈ V l ∧ l ≠ .free w := by
        by_cases hl : l = .free w
        · rw [hl, Function.update_self] at hm
          cases hm
        · rw [Function.update_of_ne hl] at hm
          exact ⟨hm, hl⟩
      obtain ⟨b, hb, hmb, hlb⟩ := h.mem_block hml.1
      have hbw : b ≠ w := by
        rintro rfl
        rcases hlb with rfl | rfl
        · exact hml.2 rfl
        · rw [hused] at hml
          cases hml.1
      obtain ⟨hle, hend⟩ := h.node_mem hb hmb
      have hpos := s.stride_pos
      refine List.mem_filter.mpr ⟨h.lists.used hml.1, ?_⟩
      rcases h.disjoint b hb w hw hbw with hd | hd <;> simp <;> omega
    foreign := fun b hb => by
      by_cases hbw : b = w
      · rw [hbw, Function.update_self, hVused]
        exact ⟨rfl, hused⟩
      · rw [hV b hbw, hVused]
        refine h.foreign b fun hmem => ?_
        rcases List.mem_cons.mp (hperm.mem_iff.mp hmem) with he | hmem
        · exact hbw he
        · exact hb hmem
    nodes := fun b hb => by
      obtain ⟨hb, hbw⟩ := hsub b hb
      rw [hV b hbw, hVused, (hblock b).1, hnodes]
      exact h.nodes b hb
    free := fun b hb => by
      obtain ⟨hb, hbw⟩ := hsub b hb
      rw [hV b hbw, (hblock b).2.2]
      exact h.free b hb
    total := by
      have hrest : ((as ++ bs).flatMap fun b => update V (.free w) [] (.free b)) =
          (as ++ bs).flatMap fun b => V (.free b) :=
        List.flatMap_congr fun b hb => hV b (hsub b hb).2
      have hall := h.total
      rw [List.flatMap_append, List.flatMap_cons, List.length_append, List.length_append,
        hlen] at hall
      rw [htotal, hrest, List.flatMap_append, List.length_append]
      omega
    live := fun ptr => by
      rw [h.live]
      simp only [hVused]
      constructor
      · rintro ⟨b, hb, m, hm, he⟩
        rcases List.mem_cons.mp (hperm.mem_iff.mp hb) with rfl | hb
        · rw [hused] at hm
          cases hm
        · exact ⟨b, hb, m, hm, he⟩
      · rintro ⟨b, hb, m, hm, he⟩
        exact ⟨b, (hsub b hb).1, m, hm, he⟩ }

/-- A block that counts as many free elements as it has lists none as used. -/
theorem Sound.used_eq_nil (h : Sound s live cs V) {w : Nat} (hw : w ∈ cs)
    (hall : (s.block w).freeElems = s.bh.elemsPerBlock) : V (.used w) = [] := by
  have hlen := (h.nodes w hw).length_eq
  rw [h.free w hw] at hall
  rw [List.length_append, length_nodesFrom] at hlen
  exact List.length_eq_zero_iff.mp (by omega)

theorem garbageLoop_sound (bs : List Nat) :
    ∀ {fuel : Nat} {as : List Nat} {s : HeapSt} {V : BlockList → List Nat},
      Sound s live (as ++ bs) V → bs.length ≤ fuel →
      ∃ cs' V', Sound (s.garbageLoop fuel as.getLast? bs.head?) live cs' V' ∧
        ∀ b ∈ as ++ bs, b ∈ cs' ∨ V (.used b) = [] := by
  induction bs with
  | nil =>
      intro fuel as s V h _
      refine ⟨as ++ [], V, ?_, fun b hb => .inl hb⟩
      cases fuel with
      | zero => exact h
      | succ fuel => exact h
  | cons w bs ih =>
      intro fuel as s V h hfuel
      obtain ⟨fuel, rfl⟩ : ∃ n, fuel = n + 1 :=
        ⟨fuel - 1, by rw [List.length_cons] at hfuel; omega⟩
      have hle : bs.length ≤ fuel := by
        rw [List.length_cons] at hfuel
        omega
      have hnext : (s.block w).next = bs.head? := h.chain.next_eq_head?
      rw [List.head?_cons, garbageLoop, hnext]
      split
      · next hall =>
          have hw : w ∈ as ++ w :: bs := by simp
          have hused := h.used_eq_nil hw hall
          obtain ⟨cs', V', hs', hkept⟩ := ih (h.dropBlock hused) hle
          refine ⟨cs', V', hs', fun b hb => ?_⟩
          rcases List.mem_cons.mp ((List.perm_middle).mem_iff.mp hb) with rfl | hb
          · exact .inr hused
          · have := hkept b hb
            rwa [Function.update_of_ne BlockList.noConfusion] at this
      · have hback : as ++ w :: bs = (as ++ [w]) ++ bs := by simp
        rw [hback] at h ⊢
        have hstep := ih h hle
        rw [List.getLast?_concat] at hstep
        exact hstep

theorem Sound.garbageCollect (h : Sound s live cs V) :
    ∃ cs' V', Sound s.blockHeapGarbageCollect live cs' V' ∧
      ∀ b ∈ cs, b ∈ cs' ∨ V (.used b) = [] := by
  rw [blockHeapGarbageCollect]
  split
  · exact ⟨cs, V, h, fun b hb => .inl hb⟩
  · rw [h.chain.head_eq]
    exact @garbageLoop_sound live cs s.bh.blocksAllocated.toNat [] s V h
      (by rw [h.count]; exact Nat.le_refl _)

/-! ## Allocation -/

theorem Sound.provide (h : Sound s live cs V) {mem : Option NewMem}
    (hfresh : ∀ new ∈ mem, s.Fresh new) :
    Answers (fun s' => s'.bh.freeElems ≠ 0 ∧ ∃ cs' V', Sound s' live cs' V')
      (fun e => e = .outOfMemory ∧ mem = none) (s.provide mem) := by
  rw [HeapSt.provide]
  split
  · next hzero =>
      have hpos := h.pos
      cases mem with
      | none =>
          -- A heap without a free element has no garbage.
          have hgc : s.blockHeapGarbageCollect = s := by
            rw [blockHeapGarbageCollect, if_pos (.inl (by omega))]
          simp only [HeapSt.newblock, Option.map_none, hgc, hzero, if_true]
          exact ⟨rfl, trivial⟩
      | some new =>
          obtain ⟨s', hs', hfree, hsound⟩ := h.newblock (hfresh new rfl)
          rw [hs']
          exact ⟨by omega, _, _, hsound⟩
  · next hne => exact ⟨hne, cs, V, h⟩

/-- A heap that counts free elements has a block that does. -/
theorem Sound.find_free (h : Sound s live cs V) (hne : s.bh.freeElems ≠ 0) :
    ∃ w ∈ cs, 0 < (s.block w).freeElems ∧
      findFrom (fun b => (s.block b).next) (fun b => 0 < (s.block b).freeElems)
        s.bh.blocksAllocated.toNat s.bh.base = some w := by
  rw [findFrom_eq h.chain (by rw [h.count]; exact Nat.le_refl _)]
  cases hf : cs.find? fun b => 0 < (s.block b).freeElems with
  | none =>
      have hnil : (cs.flatMap fun b => V (.free b)) = [] := by
        refine List.flatMap_eq_nil_iff.mpr fun b hb => ?_
        have hb' := List.find?_eq_none.mp hf b hb
        rw [h.free b hb] at hb'
        simpa using hb'
      rw [h.total, hnil] at hne
      exact absurd rfl hne
  | some w =>
      exact ⟨w, List.mem_of_find?_eq_some hf, by simpa using List.find?_some hf, rfl⟩

theorem Sound.alloc (h : Sound s live cs V) {mem : Option NewMem}
    (hfresh : ∀ new ∈ mem, s.Fresh new) :
    Answers (fun r => ∃ ptr, r.1 = some ptr ∧ ptr ∉ live ∧ (∃ b ∈ r.2.owned, r.2.Holds b ptr) ∧
        ∃ cs' V', Sound r.2 (ptr :: live) cs' V')
      (fun e => e = .outOfMemory ∧ mem = none) (s.blockHeapAlloc mem) := by
  refine (h.provide hfresh).bind fun s' hs' => ?_
  obtain ⟨hne, cs', V', hs'⟩ := hs'
  obtain ⟨w, hw, hpos, hfind⟩ := hs'.find_free hne
  obtain ⟨ptr, s'', V'', hok, hnew, hholds, hs''⟩ := hs'.take hw hpos
  simp only [hfind, hok]
  exact ⟨ptr, rfl, hnew, ⟨w, by rw [hs''.owned_eq]; exact hw, hholds⟩, cs', V'', hs''⟩

/-- The addresses of the elements of the heap that are not handed out. -/
def freeElements (s : HeapSt) (live : List Nat) : List Nat :=
  (s.owned.flatMap fun b => (s.nodesFrom (s.block b).elems).map (· + sizeofMemBlock)).filter
    (· ∉ live)

theorem Sound.length_freeElements (h : Sound s live cs V) :
    s.bh.freeElems = (s.freeElements live).length := by
  rw [h.total, freeElements, h.owned_eq, List.filter_flatMap, List.length_flatMap,
    List.length_flatMap]
  congr 2
  refine List.map_congr_left fun b hb => ?_
  have hperm := ((h.nodes b hb).map (· + sizeofMemBlock)).filter (· ∉ live)
  rw [← hperm.length_eq, List.map_append, List.filter_append, List.length_append]
  have hfree : ((V (.free b)).map (· + sizeofMemBlock)).filter (· ∉ live) =
      (V (.free b)).map (· + sizeofMemBlock) := by
    refine List.filter_eq_self.mpr fun ptr hptr => ?_
    obtain ⟨m, hm, rfl⟩ := List.mem_map.mp hptr
    simpa using h.notMem_live hm
  have hused : ((V (.used b)).map (· + sizeofMemBlock)).filter (· ∉ live) = [] := by
    refine List.filter_eq_nil_iff.mpr fun ptr hptr => ?_
    obtain ⟨m, hm, rfl⟩ := List.mem_map.mp hptr
    simpa using (h.live _).mpr ⟨b, hb, m, hm, rfl⟩
  rw [hfree, hused, List.length_map, List.length_nil, Nat.add_zero]

/-- `BlockHeapCreate` makes a heap of one block. -/
theorem blockHeapCreate_sound {smallnet : Bool} {elemsize : Nat} {elemsperblock : Int}
    {mem : Option NewMem} (hok : blockHeapCreate smallnet elemsize elemsperblock mem = .ok s) :
    ∃ cs V, Sound s [] cs V := by
  simp only [blockHeapCreate] at hok
  generalize (if smallnet then elemsperblock.tdiv 4 else elemsperblock) = size at hok
  generalize (if elemsize % 8 ≠ 0 then (elemsize + 8) / 8 * 8 else elemsize) = padded at hok
  split at hok
  · cases hok
  · next hpos =>
      cases mem with
      | none => cases hok
      | some new =>
          have hempty : Sound
              { bh := ⟨padded, size.toNat, 0, 0, none⟩
                block := fun _ => ⟨0, 0, none, 0⟩
                memblock := fun _ => none
                lists := Dlinks.empty 0 } [] [] fun _ => [] :=
            { pos := by simp only; omega
              chain := rfl
              count := rfl
              size := nofun
              disjoint := nofun
              node := nofun
              lists := ⟨fun _ => IsDlist.empty, nofun, nofun⟩
              foreign := fun _ _ => ⟨rfl, rfl⟩
              nodes := nofun
              free := nofun
              total := rfl
              live := by simp }
          obtain ⟨s', hs', -, hsound⟩ := @Sound.newblock _ _ _ _ hempty new ⟨nofun, nofun⟩
          rw [hs'] at hok
          cases hok
          exact ⟨_, _, hsound⟩

end HeapSt

/-! ## Any sequence of calls -/

inductive HeapOp
  | alloc (mem : Option NewMem)
  | free (ptr : Nat)
  | garbageCollect

structure HeapRun where
  st : HeapSt
  /-- The addresses handed out and not given back. -/
  live : List Nat

namespace HeapRun

open HeapSt (Sound)

def step (m : HeapRun) : HeapOp → Except BlockStop HeapRun
  | .alloc mem => (m.st.blockHeapAlloc mem).map fun r =>
      { st := r.2, live := r.1.toList ++ m.live }
  | .free ptr => .ok { st := (m.st.blockHeapFree ptr).2, live := m.live.filter (· ≠ ptr) }
  | .garbageCollect => .ok { m with st := m.st.blockHeapGarbageCollect }

/-- The system answers with memory that is not in use, and what is given back
is an address that was handed out. -/
def Honest (m : HeapRun) : HeapOp → Prop
  | .alloc mem => ∀ new ∈ mem, m.st.Fresh new
  | .free ptr => ptr ∈ m.live
  | .garbageCollect => True

instance (m : HeapRun) : ∀ op, Decidable (m.Honest op)
  | .alloc mem => inferInstanceAs (Decidable (∀ new ∈ mem, m.st.Fresh new))
  | .free ptr => inferInstanceAs (Decidable (ptr ∈ m.live))
  | .garbageCollect => .isTrue trivial

/-- What the callers of the heap rely on. -/
structure Correct (m : HeapRun) : Prop where
  count : m.st.bh.freeElems = (m.st.freeElements m.live).length
  owned : ∀ ptr ∈ m.live, ∃ b ∈ m.st.owned, m.st.Holds b ptr
  alloc : ∀ mem, m.Honest (.alloc mem) →
    Answers (fun r => ∃ ptr, r.1 = some ptr ∧ ptr ∉ m.live ∧ ∃ b ∈ r.2.owned, r.2.Holds b ptr)
      (fun e => e = .outOfMemory ∧ mem = none) (m.st.blockHeapAlloc mem)
  garbageCollect : ∀ b ∈ m.st.owned, b ∉ m.st.blockHeapGarbageCollect.owned →
    ∀ ptr ∈ m.live, ¬m.st.Holds b ptr

theorem step_sound {m : HeapRun} (op : HeapOp) (h : ∃ cs V, Sound m.st m.live cs V)
    (hop : m.Honest op) :
    Answers (fun m' : HeapRun => ∃ cs V, Sound m'.st m'.live cs V) (· = .outOfMemory)
      (m.step op) := by
  obtain ⟨cs, V, h⟩ := h
  cases op with
  | alloc mem =>
      refine ((h.alloc hop).imp (fun _ => id) fun _ he => he.1).map ?_
      rintro ⟨r, s'⟩ ⟨ptr, rfl, -, -, cs', V', hs'⟩
      exact ⟨cs', V', hs'⟩
  | free ptr =>
      obtain ⟨s', V', hs', hsound⟩ := h.giveBack hop
      refine ⟨cs, V', ?_⟩
      simp only [hs']
      exact hsound
  | garbageCollect =>
      obtain ⟨cs', V', hs', -⟩ := h.garbageCollect
      exact ⟨cs', V', hs'⟩

theorem Correct.of_sound {m : HeapRun} {cs : List Nat} {V : BlockList → List Nat}
    (h : Sound m.st m.live cs V) : m.Correct where
  count := h.length_freeElements
  owned ptr hptr := by
    obtain ⟨b, hb, m', hm', rfl⟩ := (h.live ptr).mp hptr
    have hnode := (h.nodes b hb).mem_iff.mp (List.mem_append_right _ hm')
    exact ⟨b, by rw [h.owned_eq]; exact hb, h.toLayout.holds hb hnode⟩
  alloc mem hmem := (h.alloc hmem).imp
    (fun _ ⟨ptr, hr, hnew, hholds, _⟩ => ⟨ptr, hr, hnew, hholds⟩) fun _ => id
  garbageCollect b hb hgone ptr hptr := by
    obtain ⟨cs', V', hs', hkept⟩ := h.garbageCollect
    rw [h.owned_eq] at hb
    rw [hs'.owned_eq] at hgone
    have hused := (hkept b hb).resolve_left hgone
    obtain ⟨b', hb', m', hm', rfl⟩ := (h.live ptr).mp hptr
    have hne : b' ≠ b := by
      rintro rfl
      rw [hused] at hm'
      cases hm'
    have hnode := (h.nodes b' hb').mem_iff.mp (List.mem_append_right _ hm')
    exact h.toLayout.holds_unique hb' hb hnode hne

end HeapRun

/-- After any calls on a heap that `BlockHeapCreate` made, `freeElems` is the
number of free elements, what is handed out lies in blocks of the heap, the
next allocation answers an address that is not handed out, and a block that
goes back to the system holds none that is. -/
theorem blockHeap_correct {smallnet : Bool} {elemsize : Nat} {elemsperblock : Int}
    {mem : Option NewMem} {s : HeapSt}
    (hcreate : HeapSt.blockHeapCreate smallnet elemsize elemsperblock mem = .ok s) (ops : List HeapOp)
    (hops : Meets HeapRun.step HeapRun.Honest ⟨s, []⟩ ops) :
    Answers HeapRun.Correct (· = .outOfMemory) (run HeapRun.step ⟨s, []⟩ ops) := by
  have hrun := run_answers (fun m op h hop => HeapRun.step_sound op h hop) ops
    (HeapSt.blockHeapCreate_sound hcreate) hops
  exact hrun.imp (fun _ ⟨_, _, h⟩ => .of_sound h) fun _ => id

/-- Two elements a block: a third comes with a block, and the garbage goes. -/
theorem blockHeap_correct_two :
    ∃ s, HeapSt.blockHeapCreate false 40 2 (some ⟨1000, 4096⟩) = .ok s ∧
      Answers HeapRun.Correct (· = .outOfMemory)
        (run HeapRun.step ⟨s, []⟩ [.alloc none, .alloc none, .alloc (some ⟨2000, 8192⟩),
          .free 4128, .free 4200, .garbageCollect, .alloc none]) :=
  ⟨_, rfl, @blockHeap_correct false 40 2 (some ⟨1000, 4096⟩) _ rfl _ (by decide)⟩

end TrIrcd
