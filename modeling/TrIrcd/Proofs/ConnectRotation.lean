import Mathlib.Data.List.Count
import Mathlib.Data.List.Find
import TrIrcd.Lib.Chain
import TrIrcd.Src.Connect

/-!
# Autoconnect goes round

A call of `try_connections` holds every block that is not on hold, and chooses the
first of these whose server is not linked and whose class has room
(`scan_eq`). The second loop takes the block off the list and walks on through the
block it has taken off, whose `next` still points into the list, so `pconf` gets to
the last conf and the block goes behind it (`moveLast_spec`).

So the candidates of a call are served as a rotation, and blocks that are on hold
for the same time are candidates again at the same time: with nobody else among the
candidates each has its turn.
-/

namespace TrIrcd

open TrIrcd.Lib
open Function (update)

/-- The conf after a call: on hold, if it can be used and was not on hold. -/
def ConnectConf.held (c : ConnectCall) (aconf : ConnectConf) : ConnectConf :=
  if aconf.connectable && !(c.timeofday < aconf.hold) then
    { aconf with hold := c.timeofday + c.getConFreq aconf.connClass }
  else aconf

/-- There is no such server, and the class has room. -/
def ConnectCall.free (c : ConnectCall) (aconf : ConnectConf) : Bool :=
  (c.findServer aconf.name).isNone &&
    aconf.connClass.any fun k => (c.cls k).links < (c.cls k).maxConnections

/-- A block that a call can choose. -/
def ConnectCall.candidate (c : ConnectCall) (aconf : ConnectConf) : Bool :=
  aconf.connectable && !(c.timeofday < aconf.hold) && c.free aconf

/-- The confs of the list. Every connect block has got a class. -/
structure ConnectSt.Listed (s : ConnectSt) (l : List Nat) : Prop where
  chain : IsChain s.next s.list l
  made : ∀ a ∈ l, a < s.made
  classes : ∀ a ∈ l, (s.conf a).connectable = true → (s.conf a).connClass.isSome = true

/-! ## The choice -/

section Scan

variable {c : ConnectCall}

theorem unlinked_eq {aconf : ConnectConf} (h : aconf.connClass.isSome = true) :
    c.unlinked aconf = .ok (c.free aconf) := by
  obtain ⟨k, hk⟩ := Option.isSome_iff_exists.mp h
  rw [ConnectCall.unlinked, ConnectCall.free, hk]
  cases c.findServer aconf.name with
  | none => rfl
  | some client => rfl

/-- What the first loop does about a conf, but for `next`. -/
theorem see_eq {s : ConnectScan} {a : Nat}
    (hclass : (s.conf a).connectable = true → (s.conf a).connClass.isSome = true) :
    ∃ next, s.see c a = .ok
      { conf := update s.conf a ((s.conf a).held c)
        conConf := s.conConf.or (if c.candidate (s.conf a) then some a else none)
        next := next } := by
  rw [ConnectScan.see, ConnectConf.held, ConnectCall.candidate]
  cases hcon : (s.conf a).connectable with
  | false =>
      refine ⟨s.next, ?_⟩
      rw [if_pos (by rfl)]
      simp
  | true =>
      by_cases hhold : c.timeofday < (s.conf a).hold
      · refine ⟨earlier s.next (s.conf a).hold, ?_⟩
        simp [hhold]
      · refine ⟨earlier s.next (c.timeofday + c.getConFreq (s.conf a).connClass), ?_⟩
        have hrun := unlinked_eq (c := c) (hclass hcon)
        cases hchosen : s.conConf with
        | none => simp [hhold, hrun, bind, Except.bind]
        | some b => simp [hhold, hrun, bind, Except.bind]

/-- The loop goes through the list: the confs that are not on hold are put on hold, and
the first candidate is chosen. -/
theorem scan_eq {next : Nat → Option Nat} {xs : List Nat} :
    ∀ {fuel : Nat} {h : Option Nat} {s : ConnectScan}, IsChain next h xs → xs.length < fuel →
      (∀ a ∈ xs, (s.conf a).connectable = true → (s.conf a).connClass.isSome = true) →
      ∃ next', ConnectSt.scan c next fuel h s = .ok
        { conf := fun a => if a ∈ xs then (s.conf a).held c else s.conf a
          conConf := s.conConf.or (xs.find? fun a => c.candidate (s.conf a))
          next := next' } := by
  induction xs with
  | nil =>
      intro fuel h s hc hlt hclass
      obtain ⟨fuel, rfl⟩ := Nat.exists_eq_succ_of_ne_zero (Nat.ne_of_gt hlt)
      refine ⟨s.next, ?_⟩
      have hend : h = none := hc
      rw [hend, ConnectSt.scan, List.find?_nil, Option.or_none]
      rfl
  | cons x xs ih =>
      intro fuel h s hc hlt hclass
      obtain ⟨fuel, rfl⟩ := Nat.exists_eq_succ_of_ne_zero (Nat.ne_of_gt (Nat.zero_lt_of_lt hlt))
      have hnd : x ∉ xs := (List.nodup_cons.mp hc.nodup).1
      obtain ⟨next₁, hsee⟩ := see_eq (hclass x List.mem_cons_self)
      -- the confs behind `x` are what they were
      have hsame : ∀ a ∈ xs, update s.conf x ((s.conf x).held c) a = s.conf a := fun a ha =>
        Function.update_of_ne (ne_of_mem_of_not_mem ha hnd) _ _
      obtain ⟨next₂, hrest⟩ := @ih fuel (next x)
        ⟨update s.conf x ((s.conf x).held c),
          s.conConf.or (if c.candidate (s.conf x) then some x else none), next₁⟩
        hc.2 (Nat.lt_of_succ_lt_succ hlt) fun a ha => by
          simp only [hsame a ha]
          exact hclass a (List.mem_cons_of_mem x ha)
      refine ⟨next₂, ?_⟩
      rw [hc.1, ConnectSt.scan, hsee]
      show ConnectSt.scan c next fuel (next x) _ = _
      rw [hrest]
      have hfind : xs.find? (fun a => c.candidate (update s.conf x ((s.conf x).held c) a)) =
          xs.find? fun a => c.candidate (s.conf a) :=
        List.find?_congr fun a ha => by rw [hsame a ha]
      have hconf : (fun a => if a ∈ xs then (update s.conf x ((s.conf x).held c) a).held c
            else update s.conf x ((s.conf x).held c) a) =
          fun a => if a ∈ x :: xs then (s.conf a).held c else s.conf a := by
        funext a
        by_cases hax : a = x
        · rw [hax, if_neg hnd, if_pos List.mem_cons_self, Function.update_self]
        · simp only [List.mem_cons, hax, false_or, Function.update_of_ne hax]
      have hchoice : (s.conConf.or (if c.candidate (s.conf x) then some x else none)).or
            (xs.find? fun a => c.candidate (s.conf a)) =
          s.conConf.or ((x :: xs).find? fun a => c.candidate (s.conf a)) := by
        rw [Option.or_assoc, List.find?_cons]
        cases c.candidate (s.conf x) <;> rfl
      rw [hfind, hconf, hchoice]

end Scan

/-! ## The move -/

namespace ConnectSt

variable {s : ConnectSt} {conConf : Nat}

theorem store_conf (pconf v : Option Nat) : (s.store pconf v).conf = s.conf := by
  cases pconf <;> rfl

theorem store_made (pconf v : Option Nat) : (s.store pconf v).made = s.made := by
  cases pconf <;> rfl

theorem store_next_of_ne {pconf : Option Nat} {a : Nat} (h : pconf ≠ some a) (v : Option Nat) :
    (s.store pconf v).next a = s.next a := by
  cases pconf with
  | none => rfl
  | some b => exact Function.update_of_ne (fun hab => h (congrArg some hab.symm)) _ _

/-- The pointer behind some confs of the list points to the next one. -/
theorem deref_getLast? {as bs : List Nat} (hc : IsChain s.next s.list (as ++ bs)) :
    s.deref as.getLast? = bs.head? := by
  rcases List.eq_nil_or_concat as with rfl | ⟨as', p, rfl⟩
  · exact hc.head_eq
  · rw [List.concat_eq_append, List.append_assoc] at hc
    rw [List.concat_eq_append, List.getLast?_concat]
    exact hc.next_eq_head?

/-- Along confs that are not the one it looks for, the loop only goes on. -/
theorem unhook_skip {as bs : List Nat} (hnot : conConf ∉ as) (fuel : Nat) :
    ∀ {pconf : Option Nat}, IsChain s.next (s.deref pconf) (as ++ bs) →
      unhook conConf (fuel + as.length) pconf s =
        unhook conConf fuel (as.getLast?.or pconf) s := by
  induction as with
  | nil => exact fun _ => rfl
  | cons a as ih =>
      intro pconf hc
      have hne : a ≠ conConf := fun h => hnot (h ▸ List.mem_cons_self)
      have hlast : (a :: as).getLast?.or pconf = as.getLast?.or (some a) := by
        rw [List.getLast?_cons, Option.some_or]
        cases as.getLast? <;> rfl
      rw [List.length_cons, ← Nat.add_assoc, unhook, hc.1, hlast,
        ← @ih (fun h => hnot (List.mem_cons_of_mem a h)) (some a) hc.2]
      simp only [if_neg hne]

/-- The conf is taken off the list. -/
theorem store_unlink {as bs : List Nat} (hc : IsChain s.next s.list (as ++ conConf :: bs)) :
    IsChain (s.store as.getLast? (s.next conConf)).next
      (s.store as.getLast? (s.next conConf)).list (as ++ bs) := by
  have hunlink := hc.unlink
  cases hlast : as.getLast? with
  | none =>
      rw [hlast] at hunlink
      exact hunlink
  | some p =>
      rw [hlast] at hunlink
      exact hunlink

/-- And it is put behind the last one. -/
theorem store_append {l : List Nat} {z : Nat} (hc : IsChain s.next s.list (l ++ [z]))
    (hnot : conConf ∉ l ++ [z]) :
    IsChain ((s.store (some z) (some conConf)).store (some conConf) none).next
      ((s.store (some z) (some conConf)).store (some conConf) none).list
      (l ++ [z] ++ [conConf]) := by
  have hne : z ≠ conConf := fun h =>
    hnot (h ▸ List.mem_append_right l (List.mem_singleton_self z))
  have hoff : IsChain (update s.next conConf none) s.list (l ++ z :: []) :=
    hc.update_of_notMem hnot
  have hself : IsChain (update s.next conConf none) (some conConf) [conConf] :=
    ⟨rfl, Function.update_self _ _ _⟩
  have hon := hoff.redirect hself fun h => hne (List.mem_singleton.mp h)
  rw [Function.update_comm hne.symm] at hon
  rw [List.append_assoc]
  exact hon

theorem moveLast_spec {l : List Nat} (hc : IsChain s.next s.list l) (hlen : l.length ≤ s.made)
    (hmem : conConf ∈ l) :
    ∃ s', s.moveLast conConf = .ok s' ∧ IsChain s'.next s'.list (toEnd (some conConf) l) ∧
      s'.conf = s.conf ∧ s'.made = s.made := by
  obtain ⟨as, bs, rfl⟩ := List.append_of_mem hmem
  have hnd := hc.nodup
  have hnotas : conConf ∉ as := fun h =>
    (List.nodup_append.mp hnd).2.2 conConf h conConf List.mem_cons_self rfl
  have hnotbs : conConf ∉ bs := (List.nodup_cons.mp (List.nodup_append.mp hnd).2.1).1
  rw [toEnd_middle hnotas, moveLast, hc.next_eq_head?]
  rcases List.eq_nil_or_concat bs with rfl | ⟨bs', z, rfl⟩
  · refine ⟨s, rfl, ?_, rfl, rfl⟩
    rw [List.append_nil]
    exact hc
  rw [List.concat_eq_append] at hc hnd hlen hnotbs ⊢
  obtain ⟨b, hb⟩ : ∃ b, (bs' ++ [z]).head? = some b := by cases bs' <;> exact ⟨_, rfl⟩
  simp only [hb]
  -- up to the conf, from it to the end, and two rounds more
  obtain ⟨k, hk⟩ : ∃ k, s.made + 1 = k + 1 + (bs' ++ [z]).length + 1 + as.length := by
    rw [List.length_append, List.length_cons] at hlen
    exact ⟨s.made - as.length - (bs' ++ [z]).length - 1, by omega⟩
  let s₁ := s.store as.getLast? (s.next conConf)
  have hchain₁ : IsChain s₁.next s₁.list (as ++ (bs' ++ [z])) := store_unlink hc
  have hself : as.getLast? ≠ some conConf := fun h => hnotas (List.mem_of_getLast? h)
  have hnext₁ : s₁.next conConf = s.next conConf := store_next_of_ne hself _
  have hbehind : IsChain s₁.next (s₁.deref (some conConf)) (bs' ++ [z] ++ []) := by
    rw [List.append_nil, deref, hnext₁]
    refine hc.suffix.congr fun x hx => store_next_of_ne (fun h => ?_) _
    exact (List.nodup_append.mp hnd).2.2 x (List.mem_of_getLast? h) x
      (List.mem_cons_of_mem _ hx) rfl
  have hderef : s.deref as.getLast? = some conConf := deref_getLast? hc
  have hend : s₁.deref (some z) = none := by
    have hall : IsChain s₁.next s₁.list (as ++ (bs' ++ [z]) ++ []) := by
      rw [List.append_nil]
      exact hchain₁
    have hlast := deref_getLast? hall
    rwa [← List.append_assoc, List.getLast?_concat] at hlast
  have hwalk : unhook conConf (s.made + 1) none s = .ok (some z, s₁) := by
    rw [hk, unhook_skip hnotas _ hc, Option.or_none, unhook, hderef]
    simp only [if_pos]
    rw [unhook_skip hnotbs _ hbehind, List.getLast?_concat, Option.some_or, unhook, hend]
  refine ⟨(s₁.store (some z) (some conConf)).store (some conConf) none, ?_, ?_, ?_, ?_⟩
  · rw [hwalk]
    rfl
  · have happend := @store_append _ conConf (as ++ bs') _ (by
      rw [List.append_assoc]
      exact hchain₁) (by
      rw [List.append_assoc]
      exact fun h => (List.mem_append.mp h).elim hnotas hnotbs)
    rw [List.append_assoc as bs'] at happend
    exact happend
  · rw [store_conf, store_conf, store_conf]
  · rw [store_made, store_made, store_made]

end ConnectSt

/-! ## A call -/

theorem held_static (c : ConnectCall) (aconf : ConnectConf) :
    ∃ hold, aconf.held c = { aconf with hold := hold } := by
  rw [ConnectConf.held]
  split
  · exact ⟨_, rfl⟩
  · exact ⟨aconf.hold, rfl⟩

namespace ConnectSt

variable {s : ConnectSt} {l : List Nat}

theorem Listed.length_le (h : s.Listed l) : l.length ≤ s.made := by
  have hsub : l ⊆ List.range s.made := fun a ha => List.mem_range.mpr (h.made a ha)
  have hle := (List.subperm_of_subset h.chain.nodup hsub).length_le
  rwa [List.length_range] at hle

/-- The confs after a call. -/
def confsAfter (c : ConnectCall) (l : List Nat) (s : ConnectSt) (a : Nat) : ConnectConf :=
  if a ∈ l then (s.conf a).held c else s.conf a

/-- A call chooses the first candidate, and moves it to the end. -/
theorem tryConnections_spec (h : s.Listed l) (c : ConnectCall) :
    ∃ r s', s.tryConnections c = .ok (r, s') ∧
      r.conConf = l.find? (fun a => c.candidate (s.conf a)) ∧
      s'.Listed (toEnd r.conConf l) ∧ s'.conf = s.confsAfter c l := by
  have hlen := h.length_le
  obtain ⟨next, hscan⟩ := @scan_eq c s.next l (s.made + 1) s.list ⟨s.conf, none, 0⟩ h.chain
    (Nat.lt_succ_of_le hlen) h.classes
  have hclasses : ∀ a ∈ l, (s.confsAfter c l a).connectable = true →
      (s.confsAfter c l a).connClass.isSome = true := by
    intro a ha hcon
    obtain ⟨hold, heq⟩ := held_static c (s.conf a)
    rw [confsAfter, if_pos ha, heq] at hcon ⊢
    exact h.classes a ha hcon
  rw [Option.none_or] at hscan
  cases hfind : l.find? (fun a => c.candidate (s.conf a)) with
  | none =>
      rw [hfind] at hscan
      refine ⟨⟨none, false, next⟩, { s with conf := s.confsAfter c l }, ?_, rfl, ?_, rfl⟩
      · simp only [tryConnections, hscan, bind, Except.bind]
        rfl
      · exact ⟨h.chain, h.made, hclasses⟩
  | some a =>
      rw [hfind] at hscan
      have ha := List.mem_of_find?_eq_some hfind
      obtain ⟨s', hmove, hchain, hconf, hmade⟩ :=
        @moveLast_spec { s with conf := s.confsAfter c l } a l h.chain hlen ha
      refine ⟨⟨some a, (s'.conf a).autoConn, next⟩, s', ?_, rfl, ?_, hconf⟩
      · simp only [tryConnections, hscan, bind, Except.bind]
        rw [show (fun a => if a ∈ l then (s.conf a).held c else s.conf a) = s.confsAfter c l
          from rfl, hmove]
      · have hperm : ∀ b, b ∈ toEnd (some a) l ↔ b ∈ l := fun b =>
          (toEnd_perm fun d hd => (Option.mem_some.mp hd) ▸ ha).mem_iff
        refine ⟨hchain, fun b hb => ?_, fun b hb => ?_⟩
        · rw [hmade]
          exact h.made b ((hperm b).mp hb)
        · rw [hconf]
          exact hclasses b ((hperm b).mp hb)

end ConnectSt

/-! ## Calls one after another -/

/-- In a call, nothing but its hold time keeps a block from being chosen, and it is held
for `f`. -/
structure ConnectCall.Serves (c : ConnectCall) (f : Int) (aconf : ConnectConf) : Prop where
  connectable : aconf.connectable = true
  free : c.free aconf = true
  freq : c.getConFreq aconf.connClass = f

/-- The blocks of `S` are on the list, none of their servers gets linked, their classes
have free links and the frequency `f`, and the calls are at least `f` apart. -/
structure ConnectSt.Repeated (s : ConnectSt) (l S : List Nat) (f : Int)
    (calls : List ConnectCall) : Prop where
  listed : s.Listed l
  nodup : S.Nodup
  subset : ∀ a ∈ S, a ∈ l
  serves : ∀ c ∈ calls, ∀ a ∈ S, c.Serves f (s.conf a)
  apart : calls.IsChain fun c d => c.timeofday + f ≤ d.timeofday

/-- In none of the calls is a block outside `S` a candidate. -/
def ConnectSt.OthersWait (l S : List Nat) : List ConnectCall → ConnectSt → Prop
  | [], _ => True
  | c :: calls, s =>
      (∀ a ∈ l, a ∉ S → c.candidate (s.conf a) = false) ∧
        ∀ r s', s.tryConnections c = .ok (r, s') → OthersWait l S calls s'

/-- The blocks of `S` are not on hold when the calls start. -/
def ConnectSt.Released (s : ConnectSt) (S : List Nat) (calls : List ConnectCall) : Prop :=
  ∀ c ∈ calls.head?, ∀ a ∈ S, (s.conf a).hold ≤ c.timeofday

theorem ConnectCall.Serves.with_hold {c : ConnectCall} {f : Int} {aconf : ConnectConf}
    (h : c.Serves f aconf) (hold : Int) : c.Serves f { aconf with hold := hold } :=
  ⟨h.connectable, h.free, h.freq⟩

namespace ConnectSt.Repeated

variable {s s' : ConnectSt} {l S : List Nat} {f : Int} {c : ConnectCall}
  {calls : List ConnectCall}

/-- A block that is not on hold is a candidate, and held until the next call. -/
theorem candidate (h : s.Repeated l S f (c :: calls)) (hrel : s.Released S (c :: calls))
    {a : Nat} (ha : a ∈ S) :
    c.candidate (s.conf a) = true ∧
      (s.conf a).held c = { s.conf a with hold := c.timeofday + f } := by
  have hserves := h.serves c List.mem_cons_self a ha
  have hhold : ¬ c.timeofday < (s.conf a).hold := Int.not_lt.mpr (hrel c rfl a ha)
  rw [ConnectCall.candidate, ConnectConf.held, hserves.connectable, hserves.free, hserves.freq]
  simp [hhold]

/-- What the next call finds. -/
theorem next (h : s.Repeated l S f (c :: calls)) (hrel : s.Released S (c :: calls))
    {l' : List Nat} (hlisted : s'.Listed l') (hperm : l'.Perm l)
    (hconf : s'.conf = s.confsAfter c l) :
    s'.Repeated l' S f calls ∧ s'.Released S calls := by
  have hafter : ∀ a ∈ S, s'.conf a = { s.conf a with hold := c.timeofday + f } := by
    intro a ha
    rw [hconf, ConnectSt.confsAfter, if_pos (h.subset a ha), (h.candidate hrel ha).2]
  refine ⟨⟨hlisted, h.nodup, fun a ha => hperm.mem_iff.mpr (h.subset a ha), ?_, ?_⟩, ?_⟩
  · intro d hd a ha
    rw [hafter a ha]
    exact (h.serves d (List.mem_cons_of_mem c hd) a ha).with_hold _
  · exact h.apart.of_cons
  · intro d hd a ha
    rw [hafter a ha]
    cases calls with
    | nil => cases hd
    | cons e calls =>
        cases hd
        exact (List.isChain_cons_cons.mp h.apart).1

/-- With nobody else among the candidates the calls are the rounds of `S`. -/
theorem tryAll_eq {l₀ : List Nat} {calls : List ConnectCall} :
    ∀ {s : ConnectSt} {l : List Nat}, l.Perm l₀ → s.Repeated l S f calls →
      s.Released S calls → s.OthersWait l₀ S calls →
      ∃ s', s.tryAll calls = .ok (rounds (fun a => a ∈ S) calls.length l, s') := by
  induction calls with
  | nil => exact fun {s l} _ _ _ _ => ⟨s, rfl⟩
  | cons c calls ih =>
      intro s l hperm h hrel hothers
      obtain ⟨r, s₁, hrun, hchoice, hlisted, hconf⟩ := tryConnections_spec h.listed c
      have hready : l.find? (fun a => c.candidate (s.conf a)) = l.find? fun a => a ∈ S := by
        refine List.find?_congr fun a ha => ?_
        by_cases hS : a ∈ S
        · rw [(h.candidate hrel hS).1, decide_eq_true hS]
        · rw [hothers.1 a (hperm.mem_iff.mp ha) hS, decide_eq_false hS]
      have hmoved : (toEnd r.conConf l).Perm l := toEnd_perm fun a ha =>
        List.mem_of_find?_eq_some (hchoice.symm.trans ha)
      obtain ⟨hnext, hreleased⟩ := h.next hrel hlisted hmoved hconf
      obtain ⟨s', hrest⟩ := ih (hmoved.trans hperm) hnext hreleased (hothers.2 r s₁ hrun)
      refine ⟨s', ?_⟩
      rw [hready] at hchoice
      simp only [ConnectSt.tryAll, hrun, hrest, bind, Except.bind, hchoice, List.length_cons,
        rounds]

end ConnectSt.Repeated

/-- Confs that are no connect blocks are never among the candidates. -/
theorem ConnectSt.othersWait_of_kind {l₀ S : List Nat} (calls : List ConnectCall) :
    ∀ {s : ConnectSt} {l : List Nat}, l.Perm l₀ → s.Listed l →
      (∀ a ∈ l₀, a ∉ S → (s.conf a).connectable = false) →
      s.OthersWait l₀ S calls := by
  induction calls with
  | nil => exact fun _ _ _ => trivial
  | cons c calls ih =>
      intro s l hperm h hkind
      refine ⟨fun a ha hS => ?_, fun r s' hrun => ?_⟩
      · rw [ConnectCall.candidate, hkind a ha hS]
        rfl
      · obtain ⟨r₁, s₁, hrun₁, hchoice, hlisted, hconf⟩ := tryConnections_spec h c
        rw [hrun] at hrun₁
        cases hrun₁
        have hmoved : (toEnd r.conConf l).Perm l := toEnd_perm fun a ha =>
          List.mem_of_find?_eq_some (hchoice.symm.trans ha)
        refine ih (hmoved.trans hperm) hlisted fun a ha hS => ?_
        obtain ⟨hold, heq⟩ := held_static c (s.conf a)
        rw [hconf, confsAfter, if_pos (hperm.mem_iff.mpr ha), heq]
        exact hkind a ha hS

/-- `S` as it stands on the list. -/
theorem filter_mem_perm {l S : List Nat} (hl : l.Nodup) (hS : S.Nodup)
    (hsub : ∀ a ∈ S, a ∈ l) : (l.filter fun a => a ∈ S).Perm S := by
  refine (List.perm_ext_iff_of_nodup (hl.filter _) hS).mpr fun a => ?_
  rw [List.mem_filter, decide_eq_true_iff]
  exact ⟨fun h => h.2, fun h => ⟨hsub a h, h⟩⟩

/-- A call leaves the list as it is but for the block it chooses, which moves to the end.
In as many calls as there are blocks in `S`, which are served in all of them and no longer
on hold in the first, each is chosen once if no other block is a candidate. -/
theorem tryConnections_rotates :
    (∀ (s : ConnectSt) (l : List Nat) (c : ConnectCall), s.Listed l →
      ∃ r s', s.tryConnections c = .ok (r, s') ∧ s'.Listed (toEnd r.conConf l) ∧
        (toEnd r.conConf l).Perm l ∧
        ∀ a ∈ r.conConf, c.candidate (s.conf a) = true ∧ a ∈ l ∧
          (toEnd r.conConf l).getLast? = some a ∧ (toEnd r.conConf l).erase a = l.erase a) ∧
      ∀ (s : ConnectSt) (l S : List Nat) (f : Int) (calls : List ConnectCall),
        s.Repeated l S f calls → s.Released S calls → s.OthersWait l S calls →
        calls.length = S.length →
        ∃ choices s', s.tryAll calls = .ok (choices, s') ∧ choices.length = S.length ∧
          ∀ a ∈ S, choices.count (some a) = 1 := by
  constructor
  · intro s l c h
    obtain ⟨r, s', hrun, hchoice, hlisted, -⟩ := ConnectSt.tryConnections_spec h c
    have hmem : ∀ a ∈ r.conConf, a ∈ l := fun a ha =>
      List.mem_of_find?_eq_some (hchoice.symm.trans ha)
    refine ⟨r, s', hrun, hlisted, toEnd_perm hmem, fun a ha => ?_⟩
    have hcand : c.candidate (s.conf a) = true :=
      List.find?_some (p := fun a => c.candidate (s.conf a)) (hchoice.symm.trans ha)
    rw [Option.mem_def.mp ha]
    exact ⟨hcand, hmem a ha, List.getLast?_concat, toEnd_erase h.chain.nodup⟩
  · intro s l S f calls h hrel hothers hlen
    obtain ⟨s', hrun⟩ := h.tryAll_eq (.refl l) hrel hothers
    have hfilter := filter_mem_perm h.listed.chain.nodup h.nodup h.subset
    have hrounds : rounds (fun a => a ∈ S) calls.length l =
        (l.filter fun a => a ∈ S).map some := by
      rw [rounds_eq (by rw [hfilter.length_eq, hlen]), hlen, ← hfilter.length_eq,
        List.take_length]
    rw [hrounds] at hrun
    refine ⟨_, s', hrun, by rw [List.length_map, hfilter.length_eq], fun a ha => ?_⟩
    rw [List.count_map_of_injective _ _ (fun _ _ => Option.some.inj), hfilter.count_eq]
    exact List.count_eq_one_of_mem h.nodup ha

/-! Two connect blocks, and a conf of another kind between them; all calls find no server,
and a class with one free link and the frequency 10. -/

def callAt (timeofday : Int) : ConnectCall where
  timeofday := timeofday
  findServer _ := none
  cls _ := ⟨1, 90, 10, 1, maxSendqLength, 0⟩

def threeConfs : ConnectSt where
  conf a := ⟨if a = 1 then confOperator else confServer, true, [0x61], 0, 7000, some 0⟩
  next a := if a = 0 then some 1 else if a = 1 then some 2 else none
  list := some 0
  made := 3

theorem threeConfs_listed : threeConfs.Listed [0, 1, 2] where
  chain := ⟨rfl, rfl, rfl, rfl⟩
  made := by decide
  classes := by decide

theorem callAt_serves {t : Int} {a : Nat} (ha : a = 0 ∨ a = 2) :
    (callAt t).Serves 10 (threeConfs.conf a) := by
  rcases ha with rfl | rfl
  · exact ⟨rfl, rfl, rfl⟩
  · exact ⟨rfl, rfl, rfl⟩

theorem threeConfs_repeated {S : List Nat} {calls : List ConnectCall} (hS : S.Nodup)
    (hmem : ∀ a ∈ S, a = 0 ∨ a = 2) (hcalls : ∀ c ∈ calls, ∃ t, c = callAt t)
    (hapart : calls.IsChain fun c d => c.timeofday + 10 ≤ d.timeofday) :
    threeConfs.Repeated [0, 1, 2] S 10 calls where
  listed := threeConfs_listed
  nodup := hS
  subset a ha := by
    rcases hmem a ha with rfl | rfl
    · decide
    · decide
  serves c hc a ha := by
    obtain ⟨t, rfl⟩ := hcalls c hc
    exact callAt_serves (hmem a ha)
  apart := hapart

/-- The theorem at the two blocks and two calls. -/
theorem tryConnections_rotates_three :
    (∃ r s', threeConfs.tryConnections (callAt 0) = .ok (r, s') ∧
        s'.Listed (toEnd r.conConf [0, 1, 2])) ∧
      ∃ choices s', threeConfs.tryAll [callAt 0, callAt 10] = .ok (choices, s') ∧
        choices.length = 2 ∧ ∀ a ∈ [0, 2], choices.count (some a) = 1 := by
  refine ⟨?_, ?_⟩
  · obtain ⟨r, s', hrun, hlisted, -⟩ :=
      tryConnections_rotates.1 threeConfs [0, 1, 2] (callAt 0) threeConfs_listed
    exact ⟨r, s', hrun, hlisted⟩
  · refine tryConnections_rotates.2 threeConfs [0, 1, 2] [0, 2] 10 [callAt 0, callAt 10]
      (threeConfs_repeated (by decide) (by decide) ?_ ?_) ?_ ?_ rfl
    · intro c hc
      rcases List.mem_cons.mp hc with rfl | hc
      · exact ⟨0, rfl⟩
      · exact ⟨10, List.mem_singleton.mp hc⟩
    · exact List.isChain_cons_cons.mpr ⟨by decide, .singleton _⟩
    · intro c hc
      cases hc
      decide
    · refine ConnectSt.othersWait_of_kind _ (.refl _) threeConfs_listed ?_
      decide

/-- One call, of which the block `2` is not chosen, since the block `0` is in front of it;
and two calls 10 apart, the first of which comes too early after another one. -/
theorem block_unchosen :
    (threeConfs.Repeated [0, 1, 2] [2] 10 [callAt 0] ∧
        (threeConfs.tryAll [callAt 0]).map (·.1) = .ok [some 0]) ∧
      ∃ s, (∃ r, threeConfs.tryConnections (callAt 0) = .ok (r, s)) ∧
        s.Repeated [1, 2, 0] [0, 2] 10 [callAt 5, callAt 15] ∧
        (s.tryAll [callAt 5, callAt 15]).map (·.1) = .ok [none, some 2] := by
  refine ⟨⟨threeConfs_repeated (by decide) (by decide) ?_ (.singleton _), rfl⟩, ?_⟩
  · exact fun c hc => ⟨0, List.mem_singleton.mp hc⟩
  · have hcall := (rfl : threeConfs.tryConnections (callAt 0) = .ok (⟨some 0, true, 10⟩, _))
    refine ⟨_, ⟨_, hcall⟩, ⟨⟨⟨rfl, rfl, rfl, rfl⟩, by decide, by decide⟩, by decide,
      by decide, fun c hc a ha => ?_, ?_⟩, rfl⟩
    · obtain rfl | rfl : c = callAt 5 ∨ c = callAt 15 := by simpa using hc
      all_goals
        obtain rfl | rfl : a = 0 ∨ a = 2 := by simpa using ha
        · exact ⟨rfl, rfl, rfl⟩
        · exact ⟨rfl, rfl, rfl⟩
    · exact List.isChain_cons_cons.mpr ⟨by decide, .singleton _⟩

end TrIrcd
