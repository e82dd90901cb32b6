import TrIrcd.Src.ServerBurst

/-!
# A new link hears of a server after its parent

A client is put before the server it is on, and that stays where it is as long
as a client is on it (`Rooted`). So from `me` along `prev`, which is the list
backwards, every server comes after the one it is on, and every client comes
once. What the new link is not told is what is behind it.

The lines name the server a server is on. That one has a line of its own unless
it is `me`, or is no server, or is behind the new link; in a tree where a server
is on `me` or on a server behind the same link, it always has
(`burst_parents`).
-/

namespace TrIrcd

open Function (update)
open TrIrcd.Lib

namespace GlobalSt

/-- `me` is last, and every other client stands before what it is on. -/
inductive Rooted (parent : Nat → Option Nat) : List Nat → Prop
  | root : Rooted parent [me]
  | add {x p : Nat} {V : List Nat} :
      parent x = some p → p ∈ V → Rooted parent V → Rooted parent (x :: V)

variable {parent parent' : Nat → Option Nat} {V : List Nat} {s s' : GlobalSt}

theorem Rooted.mem_me (h : Rooted parent V) : me ∈ V := by
  induction h with
  | root => exact List.mem_singleton_self _
  | add _ _ _ ih => exact List.mem_cons_of_mem _ ih

theorem Rooted.getLast (h : Rooted parent V) : V.getLast? = some me := by
  induction h with
  | root => rfl
  | add _ _ hV ih => rw [List.getLast?_cons, ih, Option.getD_some]

theorem Rooted.congr (h : Rooted parent V)
    (hsame : ∀ x ∈ V, parent' x = parent x ∨ parent' x = some me) : Rooted parent' V := by
  induction h with
  | root => exact .root
  | @add x p V hx hp hV ih =>
      have ih := ih fun y hy => hsame y (List.mem_cons_of_mem _ hy)
      rcases hsame x (List.mem_cons_self ..) with heq | heq
      · exact .add (heq.trans hx) hp ih
      · exact .add heq hV.mem_me ih

/-- A client that no other is on can go. -/
theorem Rooted.erase (h : Rooted parent V) {x : Nat} (hx : x ≠ me)
    (hfree : ∀ c ∈ V, parent c ≠ some x) : Rooted parent (V.erase x) := by
  induction h with
  | root =>
      rw [List.erase_of_not_mem fun hm => hx (List.mem_singleton.mp hm)]
      exact .root
  | @add y p V hy hp hV ih =>
      rw [List.erase_cons]
      split
      · exact hV
      · have hpx : p ≠ x := fun he => hfree y (List.mem_cons_self ..) (he ▸ hy)
        exact .add hy ((List.mem_erase_of_ne hpx).mpr hp)
          (ih fun c hc => hfree c (List.mem_cons_of_mem _ hc))

/-- Backwards, what a client is on has come before it. -/
theorem Rooted.before (h : Rooted parent V) : ∀ {as bs : List Nat} {x : Nat},
    V.reverse = as ++ x :: bs → x = me ∨ ∃ p, parent x = some p ∧ p ∈ as := by
  induction h with
  | root =>
      intro as bs x heq
      have hx : x ∈ [me] := by
        rw [← List.reverse_singleton, heq]
        exact List.mem_append_right _ (List.mem_cons_self ..)
      exact .inl (List.mem_singleton.mp hx)
  | @add y p V hy hp hV ih =>
      intro as bs x heq
      rw [List.reverse_cons] at heq
      rcases List.eq_nil_or_concat bs with rfl | ⟨bs, z, rfl⟩
      · -- The newest client comes last.
        obtain ⟨has, hx⟩ := List.append_inj' heq rfl
        rw [List.singleton_inj.mp hx] at hy
        exact .inr ⟨p, hy, has ▸ List.mem_reverse.mpr hp⟩
      · rw [List.concat_eq_append, ← List.cons_append, ← List.append_assoc] at heq
        exact ih (List.append_inj' heq rfl).1

/-! ## The list -/

/-- The list is `V`, and in order. -/
structure Listed (s : GlobalSt) (V : List Nat) : Prop where
  links : Linked s.links fun _ => V
  tidy : s.links.Tidy fun _ => V
  live : V ⊆ s.live
  rooted : Rooted (fun x => (s.client x).servptr) V
  self : (s.client me).servptr = some me

theorem Listed.nodup (h : Listed s V) : V.Nodup := h.links.nodup ()

theorem Listed.length_le (h : Listed s V) : V.length ≤ s.live.length :=
  h.nodup.length_le_of_subset h.live

theorem Listed.list_eq (h : Listed s V) : s.list = V :=
  walk_eq (h.links.dlist ()).1 h.length_le

theorem init_listed (name info : List UInt8) : Listed (init name info) [me] where
  links := by
    have h := (@Linked.empty Unit Nat).add (x := me) (fun _ => List.not_mem_nil) ()
    have hV : update (fun _ : Unit => []) () [me] = fun _ => [me] := funext fun _ => rfl
    rw [hV] at h
    exact h
  tidy := by
    have h := (@Linked.empty Unit Nat).add_tidy Linked.empty_tidy () me
    have hV : update (fun _ : Unit => []) () [me] = fun _ => [me] := funext fun _ => rfl
    rw [hV] at h
    exact h
  live := List.Subset.refl _
  rooted := .root
  self := rfl

theorem Listed.add (h : Listed s V) {x : Nat} {c : BurstClient} (hx : x ∉ s.live) {p : Nat}
    (hc : c.servptr = some p) (hp : p ∈ V) : Listed (s.addClientToList x c) (x :: V) := by
  have hnew : x ∉ V := fun hm => hx (h.live hm)
  have hne : ∀ y ∈ V, y ≠ x := fun y hy he => hnew (he ▸ hy)
  have hV : update (fun _ : Unit => V) () (x :: V) = fun _ => x :: V := funext fun _ => rfl
  have hself : (s.addClientToList x c).client x = c := Function.update_self ..
  have hother : ∀ y ∈ V, (s.addClientToList x c).client y = s.client y :=
    fun y hy => Function.update_of_ne (hne y hy) ..
  refine ⟨?_, ?_, ?_, ?_, ?_⟩
  · rw [← hV]
    exact h.links.add (fun _ => hnew) ()
  · rw [← hV]
    exact h.links.add_tidy h.tidy () x
  · exact List.cons_subset_cons x h.live
  · refine .add (p := p) ?_ hp (h.rooted.congr fun y hy => .inl ?_)
    · rw [hself, hc]
    · rw [hother y hy]
  · rw [hother _ h.rooted.mem_me]
    exact h.self

theorem Listed.remove (h : Listed s V) {x : Nat}
    (hfree : ∀ c ∈ V, (s.client c).servptr ≠ some x) :
    Listed (s.removeClientFromList x) (V.erase x) := by
  have hxme : x ≠ me := fun he => hfree me h.rooted.mem_me (he ▸ h.self)
  have hrooted := h.rooted.erase hxme hfree
  have hlive : V.erase x ⊆ s.live.erase x := by
    intro y hy
    obtain ⟨hne, hin⟩ := h.nodup.mem_erase_iff.mp hy
    exact (List.mem_erase_of_ne hne).mpr (h.live hin)
  by_cases hx : x ∈ V
  · -- The client is not alone: `me` is on the list as well.
    have hlinks : ¬ (s.links.prev x = none ∧ s.links.next x = none) := by
      rintro ⟨hprev, hnext⟩
      obtain ⟨as, bs, hV⟩ := List.append_of_mem hx
      have hd := h.links.dlist ()
      rw [hV] at hd
      rw [hd.prev_eq, List.getLast?_eq_none_iff] at hprev
      rw [hd.next_eq, List.head?_eq_none_iff] at hnext
      rw [hprev, hnext] at hV
      have hme := h.rooted.mem_me
      rw [hV] at hme
      exact hxme (List.mem_singleton.mp hme).symm
    have hr := h.links.remove h.tidy (i := ()) hx
    have hV : update (fun _ : Unit => V) () (V.erase x) = fun _ => V.erase x := funext fun _ => rfl
    rw [hV] at hr
    have heq : (s.removeClientFromList x).links = (s.links.del () x).clear x := by
      rw [removeClientFromList, if_neg hlinks]
    exact ⟨heq ▸ hr.1, heq ▸ hr.2, hlive, hrooted, h.self⟩
  · have hlinks := h.tidy x fun _ => hx
    have heq : (s.removeClientFromList x).links = s.links.clear x := by
      rw [removeClientFromList, if_pos ⟨hlinks.2, hlinks.1⟩]
    have herase : V.erase x = V := List.erase_of_not_mem hx
    rw [herase] at hlive hrooted ⊢
    exact ⟨heq ▸ h.links.clear fun _ => hx, heq ▸ Linked.clear_tidy h.tidy x, hlive, hrooted, h.self⟩

theorem Listed.register (h : Listed s V) {x : Nat} {c : BurstClient} (hx : x ≠ me)
    (hc : c.servptr = (s.client x).servptr ∨ c.servptr = some me) :
    Listed { s with client := update s.client x c } V := by
  refine ⟨h.links, h.tidy, h.live, h.rooted.congr fun y _ => ?_, ?_⟩
  · dsimp only
    by_cases hy : y = x
    · rw [hy, Function.update_self]
      exact hc
    · rw [Function.update_of_ne hy]
      exact .inl rfl
  · dsimp only
    rw [Function.update_of_ne hx.symm]
    exact h.self

theorem step_listed {op : GlobalOp} (h : ∃ V, Listed s V) (hstep : s.step op = .ok s') :
    ∃ V, Listed s' V := by
  obtain ⟨V, h⟩ := h
  cases op with
  | add x c =>
      simp only [step] at hstep
      split at hstep
      · next hg =>
          cases hstep
          obtain ⟨hx, p, hp, hin⟩ := hg
          rw [h.list_eq] at hin
          exact ⟨_, h.add hx hp hin⟩
      · cases hstep
  | remove x =>
      simp only [step] at hstep
      split at hstep
      · next hg =>
          cases hstep
          rw [h.list_eq] at hg
          exact ⟨_, h.remove hg⟩
      · cases hstep
  | register x c =>
      simp only [step] at hstep
      split at hstep
      · next hg =>
          cases hstep
          exact ⟨_, h.register hg.1 hg.2⟩
      · cases hstep

/-! ## The lines -/

/-- What the loop sends when it is at a client. -/
def lineFor (s : GlobalSt) (clientP targetP : Nat) : Option ServerLine :=
  if (s.client targetP).fromPtr = clientP then none
  else if (s.client targetP).isServer then some (serverLine s clientP targetP)
  else none

theorem continueLoop_eq (s : GlobalSt) (clientP : Nat) : ∀ {fuel : Nat} {h : Option Nat}
    {xs : List Nat}, IsChain s.links.prev h xs → xs.length ≤ fuel →
    continueLoop s clientP fuel h = xs.filterMap (lineFor s clientP)
  | 0, _, xs, _, hf => by
      rw [List.length_eq_zero_iff.mp (Nat.le_zero.mp hf)]
      rfl
  | fuel + 1, h, [], hc, _ => by
      have hnone : h = none := hc
      rw [hnone]
      rfl
  | fuel + 1, h, x :: xs, hc, hf => by
      rw [hc.1, continueLoop, continueLoop_eq s clientP hc.2 (Nat.le_of_succ_le_succ hf),
        List.filterMap_cons, lineFor]
      split
      · rfl
      · split <;> rfl

theorem Listed.burst_eq (h : Listed s V) (clientP : Nat) :
    doContinueServerEstab clientP s = V.reverse.filterMap (lineFor s clientP) := by
  have hchain := (h.links.dlist ()).2
  rw [h.rooted.getLast] at hchain
  refine continueLoop_eq s clientP hchain ?_
  rw [List.length_reverse]
  exact h.length_le

theorem serverLine_target (s : GlobalSt) (clientP targetP : Nat) :
    (serverLine s clientP targetP).target = targetP ∧
      (serverLine s clientP targetP).prefixPtr = (s.client targetP).servptr := by
  rw [serverLine]
  split <;> exact ⟨rfl, rfl⟩

/-- The new link is told of a client if it is a server that is not behind it. -/
def Told (s : GlobalSt) (clientP t : Nat) : Prop :=
  (s.client t).isServer = true ∧ (s.client t).fromPtr ≠ clientP

theorem lineFor_eq_some {clientP t : Nat} {line : ServerLine} :
    lineFor s clientP t = some line ↔ Told s clientP t ∧ serverLine s clientP t = line := by
  rw [lineFor, Told]
  split
  · next hfrom => exact iff_of_false nofun fun h => h.1.2 hfrom
  · next hfrom =>
      split
      · next hserver => rw [Option.some_inj, and_iff_right ⟨hserver, hfrom⟩]
      · next hserver => exact iff_of_false nofun fun h => hserver h.1.1

/-- A client that is told of has its line where it stands. -/
theorem mem_lines {clientP t : Nat} {xs : List Nat} :
    t ∈ (xs.filterMap (lineFor s clientP)).map ServerLine.target ↔ t ∈ xs ∧ Told s clientP t := by
  simp only [List.mem_map, List.mem_filterMap, lineFor_eq_some]
  constructor
  · rintro ⟨line, ⟨x, hx, htold, rfl⟩, rfl⟩
    rw [(serverLine_target ..).1]
    exact ⟨hx, htold⟩
  · rintro ⟨hx, htold⟩
    exact ⟨_, ⟨t, hx, htold, rfl⟩, (serverLine_target ..).1⟩

theorem nodup_lines {clientP : Nat} {xs : List Nat} (h : xs.Nodup) :
    ((xs.filterMap (lineFor s clientP)).map ServerLine.target).Nodup := by
  refine (h.sublist ?_)
  induction xs with
  | nil => exact List.Sublist.refl _
  | cons x xs ih =>
      have ih := ih (List.nodup_cons.mp h).2
      rw [List.filterMap_cons]
      cases hl : lineFor s clientP x with
      | none => exact ih.cons x
      | some line =>
          obtain ⟨-, rfl⟩ := lineFor_eq_some.mp hl
          rw [List.map_cons, (serverLine_target ..).1]
          exact ih.cons_cons x

/-- The lines name the server a server is on, and its own line comes before. -/
theorem Listed.line_parent (h : Listed s V) {clientP : Nat} {as bs : List ServerLine}
    {line : ServerLine} (heq : doContinueServerEstab clientP s = as ++ line :: bs) :
    line.target ∈ V ∧ Told s clientP line.target ∧
      ∃ p, (s.client line.target).servptr = some p ∧ line.prefixPtr = some p ∧ p ∈ V ∧
        (p = me ∨ p ∈ as.map ServerLine.target ∨ ¬ Told s clientP p) := by
  rw [h.burst_eq] at heq
  obtain ⟨xs, ys, hrev, rfl, htail⟩ := List.filterMap_eq_append_iff.mp heq
  obtain ⟨zs, t, us, rfl, hskip, hline, rfl⟩ := List.filterMap_eq_cons_iff.mp htail
  obtain ⟨htold, rfl⟩ := lineFor_eq_some.mp hline
  rw [← List.append_assoc] at hrev
  have hin : ∀ p, p ∈ xs ++ zs ∨ p = t → p ∈ V := by
    rintro p hp
    rw [← List.mem_reverse, hrev]
    rcases hp with hp | rfl
    · exact List.mem_append_left _ hp
    · exact List.mem_append_right _ (List.mem_cons_self ..)
  obtain ⟨htarget, hprefix⟩ := serverLine_target s clientP t
  rw [htarget, hprefix]
  refine ⟨hin t (.inr rfl), htold, ?_⟩
  rcases h.rooted.before hrev with rfl | ⟨p, hparent, hp⟩
  · exact ⟨me, h.self, h.self, h.rooted.mem_me, .inl rfl⟩
  · refine ⟨p, hparent, hparent, hin p (.inl hp), .inr ?_⟩
    by_cases hp' : Told s clientP p
    · refine .inl (mem_lines.mpr ⟨?_, hp'⟩)
      rcases List.mem_append.mp hp with hp | hp
      · exact hp
      · -- Between two lines there is no client that is told of.
        have hsome := lineFor_eq_some.mpr ⟨hp', rfl⟩
        rw [hskip p hp] at hsome
        cases hsome
    · exact .inr hp'

theorem reachable_listed {name info : List UInt8} {ops : List GlobalOp}
    (hrun : run step (init name info) ops = .ok s) : ∃ V, Listed s V :=
  run_invariant (I := fun s => ∃ V, Listed s V) (fun _ _ _ => step_listed) ops
    ⟨_, init_listed name info⟩ hrun

end GlobalSt

open GlobalSt

/-- A new link is told of every server that is not behind it, of each once, and
of none before the server that the line names, if that is one it is told of. -/
theorem burst_respects_tree (name info : List UInt8) (ops : List GlobalOp) {s : GlobalSt}
    (hrun : run GlobalSt.step (init name info) ops = .ok s) (clientP : Nat) :
    ((doContinueServerEstab clientP s).map ServerLine.target).Nodup ∧
      (∀ t, t ∈ (doContinueServerEstab clientP s).map ServerLine.target ↔
        t ∈ s.list ∧ Told s clientP t) ∧
      ∀ as line bs, doContinueServerEstab clientP s = as ++ line :: bs →
        ∃ p ∈ s.list, (s.client line.target).servptr = some p ∧ line.prefixPtr = some p ∧
          (p = GlobalSt.me ∨ p ∈ as.map ServerLine.target ∨ ¬ Told s clientP p) := by
  obtain ⟨V, h⟩ := reachable_listed hrun
  rw [h.list_eq]
  refine ⟨?_, fun t => ?_, fun as line bs heq => ?_⟩
  · rw [h.burst_eq]
    exact nodup_lines (List.nodup_reverse.mpr h.nodup)
  · rw [h.burst_eq, mem_lines, List.mem_reverse]
  · obtain ⟨-, -, p, hparent, hprefix, hp, hcase⟩ := h.line_parent heq
    exact ⟨p, hp, hparent, hprefix, hcase⟩

/-- A server on `parent` behind the link `fromPtr`. -/
def burstServer (fromPtr parent : Nat) : BurstClient :=
  ⟨[0x61], burstStatServer, fromPtr, some parent, 1, false, false, false, none, [], false⟩

/-- A server linked to `me`, and one behind that. -/
theorem burst_respects_tree_behind :
    let s := ((init [] []).addClientToList 1 (burstServer 1 GlobalSt.me)).addClientToList 2 (burstServer 1 1)
    ((doContinueServerEstab 3 s).map ServerLine.target).Nodup ∧
      (doContinueServerEstab 3 s).map ServerLine.target = [1, 2] :=
  ⟨(burst_respects_tree [] [] [.add 1 (burstServer 1 GlobalSt.me), .add 2 (burstServer 1 1)] rfl 3).1, rfl⟩

/-- A server that is on a link without being behind it: its line names the new
link, which has none. -/
theorem burst_parent_untold :
    let ops := [GlobalOp.add 1 (burstServer 1 GlobalSt.me), .add 2 (burstServer 2 1)]
    ∃ s, run GlobalSt.step (init [] []) ops = .ok s ∧
      ∃ as line bs, doContinueServerEstab 1 s = as ++ line :: bs ∧
        (s.client line.target).servptr = some 1 ∧ 1 ≠ GlobalSt.me ∧ 1 ∉ as.map ServerLine.target :=
  ⟨_, rfl, [], _, [], rfl, rfl, by decide, List.not_mem_nil⟩

/-- Where every server is on `me` or on a server behind the same link, a line
comes after that of the server it names. -/
theorem burst_parents {name info : List UInt8} {ops : List GlobalOp} {s : GlobalSt}
    (hrun : run GlobalSt.step (init name info) ops = .ok s)
    (htree : ∀ t ∈ s.list, (s.client t).isServer = true → ∀ p ∈ (s.client t).servptr,
      p = GlobalSt.me ∨ (s.client p).isServer = true ∧ (s.client p).fromPtr = (s.client t).fromPtr)
    {clientP : Nat} {as bs : List ServerLine} {line : ServerLine}
    (heq : doContinueServerEstab clientP s = as ++ line :: bs) :
    line.prefixPtr = some GlobalSt.me ∨ ∃ p ∈ as.map ServerLine.target, line.prefixPtr = some p := by
  obtain ⟨V, h⟩ := reachable_listed hrun
  obtain ⟨hin, htold, p, hparent, hprefix, -, hcase⟩ := h.line_parent heq
  rw [h.list_eq] at htree
  rcases hcase with rfl | hbefore | hno
  · exact .inl hprefix
  · exact .inr ⟨p, hbefore, hprefix⟩
  · rcases htree _ hin htold.1 p hparent with rfl | ⟨hserver, hfrom⟩
    · exact .inl hprefix
    · exact absurd ⟨hserver, hfrom ▸ htold.2⟩ hno

end TrIrcd
