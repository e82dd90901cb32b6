import TrIrcd.Lib.Glob

/-!
# What a search costs

A search with one place to go back to compares a segment with every place of
the word up to the first one where it fits, and the last segment with every
place up to the one at the end of the word. A try costs a comparison for every
token that takes its symbol and one for the first that does not.
`patternCost` adds this up from the pattern and the word alone, and every
comparison of a search for a word of the pattern is one of them
(`Costs.compare`).
-/

namespace TrIrcd.Lib

variable {α β : Type} (r : α → β → Prop) [∀ c d, Decidable (r c d)]

/-- How many tokens in a row take a symbol. -/
def fitLength : List (Tok α) → List β → Nat
  | t :: s, d :: w => if t.Takes r d then fitLength s w + 1 else 0
  | _, _ => 0

/-- The comparisons of one try. -/
def tryCost (s : List (Tok α)) (w : List β) : Nat := min (fitLength r s w + 1) s.length

/-- The tries up to the first that does not fail, and what comes behind it. -/
def seekCost (s : List (Tok α)) (next : List β → Nat) : List β → Nat
  | [] => next []
  | d :: w =>
      if Starts r s (d :: w) then s.length + next ((d :: w).drop s.length)
      else tryCost r s (d :: w) + seekCost s next w

/-- The tries up to the one at the end of the word. -/
def lastCost (s : List (Tok α)) : List β → Nat
  | [] => 0
  | d :: w =>
      if (d :: w).length ≤ s.length then s.length
      else tryCost r s (d :: w) + lastCost s w

/-- The segments behind stars. -/
def scanCost : List (List (Tok α)) → List β → Nat
  | [], _ => 0
  | [s], w => lastCost r s w
  | s :: ss, w => seekCost r s (scanCost ss) w

/-- The segment before the first star, and those behind stars. -/
def patternCost (p : List (Tok α)) (w : List β) : Nat :=
  match p.splitOnP Tok.isStar with
  | [] => 0
  | [s] => s.length
  | s :: ss => s.length + scanCost r ss (w.drop s.length)


variable {r} {p s : List (Tok α)} {t : Tok α} {w v : List β} {d : β}

theorem splitOnP_of_notMem (hs : .star ∉ s) : s.splitOnP Tok.isStar = [s] := by
  refine List.splitOnP_eq_singleton fun t ht => ?_
  cases t with
  | star => exact absurd ht hs
  | any => rfl
  | lit c => rfl

theorem splitOnP_star (hs : .star ∉ s) (p : List (Tok α)) :
    (s ++ .star :: p).splitOnP Tok.isStar = s :: p.splitOnP Tok.isStar := by
  refine List.splitOnP_append_cons_of_forall_mem (fun t ht => ?_) _ rfl _
  cases t with
  | star => exact absurd ht hs
  | any => rfl
  | lit c => rfl

theorem scanCost_cons {ss : List (List (Tok α))} (h : ss ≠ []) :
    scanCost r (s :: ss) w = seekCost r s (scanCost r ss) w := by
  cases ss with
  | nil => exact absurd rfl h
  | cons s' ss => rfl

theorem patternCost_of_notMem (hs : .star ∉ s) : patternCost r s w = s.length := by
  rw [patternCost, splitOnP_of_notMem hs]

theorem patternCost_star (hs : .star ∉ s) (p : List (Tok α)) :
    patternCost r (s ++ .star :: p) w =
      s.length + scanCost r (p.splitOnP Tok.isStar) (w.drop s.length) := by
  rw [patternCost, splitOnP_star hs]
  cases h : p.splitOnP Tok.isStar with
  | nil => exact absurd h (List.splitOnP_ne_nil _ _)
  | cons s' ss => rfl

/-- A segment that fits is not tried again. -/
theorem seekCost_of_starts (h : Starts r s w) (next : List β → Nat) :
    seekCost r s next w = s.length + next (w.drop s.length) := by
  cases w with
  | nil =>
      have hlen := h.length_le
      rw [List.length_nil, Nat.le_zero] at hlen
      rw [seekCost, hlen, Nat.zero_add, List.drop_nil]
  | cons d w => rw [seekCost, if_pos h]

theorem fitLength_append : ∀ {s : List (Tok α)} {w : List β}, Starts r s w →
    fitLength r (s ++ p) w = s.length + fitLength r p (w.drop s.length)
  | [], _, _ => by rw [List.nil_append, List.length_nil, Nat.zero_add, List.drop_zero]
  | _ :: _, [], h => h.elim
  | t :: s, d :: w, h => by
      rw [List.cons_append, fitLength, if_pos h.1, fitLength_append h.2, List.length_cons,
        List.drop_succ_cons]
      omega

/-- The comparison that fails is the last of its try. -/
theorem tryCost_of_miss (hs : Starts r s w) (hd : w.drop s.length = d :: v)
    (ht : ¬ t.Takes r d) : tryCost r (s ++ t :: p) w = s.length + 1 := by
  rw [tryCost, fitLength_append hs, hd, fitLength, if_neg ht, List.length_append,
    List.length_cons, Nat.add_zero]
  omega

/-- A segment that fits costs no more than its tokens. -/
theorem tryCost_of_starts (hs : Starts r s w) : tryCost r s w = s.length := by
  have h := @fitLength_append _ _ r _ [] s w hs
  rw [List.append_nil] at h
  rw [tryCost, h]
  omega

/-- A star at the end costs nothing. -/
theorem lastCost_nil : ∀ w : List β, lastCost r ([] : List (Tok α)) w = 0
  | [] => rfl
  | _ :: w => by
      rw [lastCost, List.length_nil, List.length_cons, if_neg (Nat.not_succ_le_zero _),
        lastCost_nil w, tryCost, List.length_nil, Nat.min_zero]

namespace Scan

variable (r) in
/-- The comparisons from where the search stands when it goes back. -/
def total (c : Scan α β) : Nat :=
  if c.wild then scanCost r (c.back.splitOnP Tok.isStar) c.base else patternCost r c.back c.base

variable (r) in
/-- There are `k` comparisons left. -/
def Costs (c : Scan α β) (k : Nat) : Prop := total r c + c.rest.length = c.back.length + k

variable {c c' : Scan α β} {k : Nat}

theorem start_costs (p : List (Tok α)) (w : List β) :
    (start p w).Costs r (patternCost r p w) :=
  Nat.add_comm _ _

/-- A search that has come to a star pays what it has compared. -/
theorem Good.total_star (h : c.Good r) (hrest : c.rest = .star :: p) :
    total r c + c.rest.length =
      c.back.length + scanCost r (p.splitOnP Tok.isStar) c.word := by
  obtain ⟨s, hback, hs, hword⟩ := h
  have hlen : c.back.length = s.length + c.rest.length := by rw [hback, List.length_append]
  rw [hrest] at hback
  rw [hlen, hword, total, hback]
  cases c.wild with
  | false =>
      rw [if_neg Bool.false_ne_true, patternCost_star hs.notMem_star]
      omega
  | true =>
      rw [if_pos rfl, splitOnP_star hs.notMem_star, scanCost_cons (List.splitOnP_ne_nil _ _),
        seekCost_of_starts hs]
      omega

theorem Costs.skip (h : (c.skip p).Costs r k) (hgood : c.Good r) (hrest : c.rest = .star :: p) :
    c.Costs r k := by
  have hk : scanCost r (p.splitOnP Tok.isStar) c.word + p.length = p.length + k := h
  rw [Costs, hgood.total_star hrest]
  omega

theorem Costs.skips : ∀ (j : Nat) {c : Scan α β}, (c.skip p).Costs r k → c.Good r →
    c.rest = List.replicate (j + 1) .star ++ p → c.Costs r k
  | 0, _, h, hgood, hrest => h.skip hgood hrest
  | j + 1, c, h, hgood, hrest => by
      have hrest' : c.rest = .star :: (List.replicate (j + 1) .star ++ p) := by
        rw [hrest, List.replicate_succ, List.cons_append]
      have hfirst : (c.skip (List.replicate (j + 1) .star ++ p)).Costs r k :=
        Costs.skips j (by exact h) (hgood.skip hrest').1 rfl
      exact hfirst.skip hgood hrest'

/-- A segment at the end of the pattern fits before the end of the word. -/
theorem Good.total_end (h : c.Good r) (hrest : c.rest = []) (hwild : c.wild = true)
    (hne : c.word ≠ []) : total r c = c.back.length + total r c.retry := by
  obtain ⟨s, hback, hs, hword⟩ := h
  rw [hrest, List.append_nil] at hback
  have hlt : s.length < c.base.length := by
    rw [← Nat.not_le, ← List.drop_eq_nil_iff, ← hword]
    exact hne
  have hretry : total r c.retry = lastCost r s (c.base.drop 1) := by
    show (if c.wild then scanCost r (c.back.splitOnP Tok.isStar) (c.base.drop 1) else _) = _
    rw [if_pos hwild, hback, splitOnP_of_notMem hs.notMem_star]
    rfl
  rw [hretry, total, if_pos hwild, hback, splitOnP_of_notMem hs.notMem_star]
  cases hbase : c.base with
  | nil =>
      rw [hbase] at hlt
      exact absurd hlt (Nat.not_lt_zero _)
  | cons d w =>
      rw [hbase] at hs hlt
      show lastCost r s (d :: w) = _
      rw [lastCost, if_neg (Nat.not_le.mpr hlt), tryCost_of_starts hs]
      rfl

/-- Going back at the end of the pattern is no comparison. -/
theorem Costs.retry (h : c.retry.Costs r k) (hgood : c.Good r) (hrest : c.rest = [])
    (hwild : c.wild = true) (hne : c.word ≠ []) : c.Costs r k := by
  have hk : total r c.retry + c.back.length = c.back.length + k := h
  rw [Costs, hgood.total_end hrest hwild hne, hrest, List.length_nil]
  omega

/-- A try that fails where the word goes on. -/
theorem Good.total_miss (h : c.Good r) (hacc : c.Accepts r) (hrest : c.rest = t :: p)
    (hword : c.word = d :: v) (ht : t ≠ .star) (hno : ¬ t.Takes r d) (hwild : c.wild = true) :
    total r c + c.rest.length = c.back.length + 1 + total r c.retry := by
  have hf : c.Fails r := .inr ⟨t, p, d, v, hrest, hword, ht, hno⟩
  have hnot := h.not_matches hf
  obtain ⟨s, hback, hs, hw⟩ := h
  have hlen : c.back.length = s.length + c.rest.length := by rw [hback, List.length_append]
  have hretry : total r c.retry = scanCost r (c.back.splitOnP Tok.isStar) (c.base.drop 1) :=
    if_pos hwild
  have hdrop : c.base.drop s.length = d :: v := by rw [← hw, hword]
  rw [hretry, hlen, total, if_pos hwild]
  rw [hrest] at hback
  cases hbase : c.base with
  | nil =>
      rw [hbase, List.drop_nil] at hdrop
      cases hdrop
  | cons e w =>
      rw [hbase] at hs hdrop
      rw [List.drop_one, List.tail_cons]
      by_cases hmem : .star ∈ p
      · obtain ⟨p₀, q, rfl, hp₀⟩ := List.eq_append_cons_of_mem hmem
        have hseg : .star ∉ s ++ t :: p₀ := by
          simp only [List.mem_append, List.mem_cons, not_or]
          exact ⟨hs.notMem_star, Ne.symm ht, hp₀⟩
        have hback' : c.back = (s ++ t :: p₀) ++ .star :: q := by
          rw [hback, List.append_assoc, List.cons_append]
        have hnot' : ¬ Starts r (s ++ t :: p₀) (e :: w) := by
          rw [starts_append, hdrop]
          exact fun hst => hno hst.2.1
        rw [hback', splitOnP_star hseg, scanCost_cons (List.splitOnP_ne_nil _ _),
          scanCost_cons (List.splitOnP_ne_nil _ _), seekCost, if_neg hnot',
          tryCost_of_miss hs hdrop hno]
        omega
      · -- The last segment: the word is longer, or it would end here.
        have hseg : .star ∉ c.back := by
          rw [hback]
          simp only [List.mem_append, List.mem_cons, not_or]
          exact ⟨hs.notMem_star, Ne.symm ht, hmem⟩
        have hlong : ¬ (e :: w).length ≤ c.back.length := by
          intro hle
          rw [Accepts, if_pos hwild, hbase] at hacc
          rcases matches_star_cons.mp hacc with hm | ⟨u, hu, hm⟩
          · rw [hbase] at hnot
            exact hnot hm
          · have hm' := @matches_append _ _ r [] _ u hseg
            rw [List.append_nil] at hm'
            have hu' := hu.length_le
            have hst := (hm'.mp hm).1.length_le
            rw [List.length_cons] at hle
            omega
        rw [splitOnP_of_notMem hseg]
        show lastCost r c.back (e :: w) + _ = _ + lastCost r c.back w
        rw [lastCost, if_neg hlong, hback, tryCost_of_miss hs hdrop hno]
        omega

/-- Every comparison is counted once. -/
theorem Costs.compare (h : c'.Costs r k) (hgood : c.Good r) (hacc : c.Accepts r)
    (hc : Compare r c c') : c.Costs r (k + 1) := by
  cases hc with
  | take hrest hword ht =>
      have hk : total r c + c.rest.tail.length = c.back.length + k := h
      rw [Costs, hrest]
      rw [hrest, List.tail_cons] at hk
      rw [List.length_cons]
      omega
  | miss hrest hword ht hno hwild =>
      have hk : total r c.retry + c.back.length = c.back.length + k := h
      rw [Costs, hgood.total_miss hacc hrest hword ht hno hwild]
      omega

/-- Nothing is left where both sides end. -/
theorem Good.costs_end (h : c.Good r) (hrest : c.rest = []) (hword : c.word = []) :
    c.Costs r 0 := by
  obtain ⟨s, hback, hs, hw⟩ := h
  rw [hrest, List.append_nil] at hback
  have hle : c.base.length ≤ s.length := by
    rw [← List.drop_eq_nil_iff, ← hw, hword]
  rw [Costs, hrest, hback, total, hback]
  cases c.wild with
  | false =>
      rw [if_neg Bool.false_ne_true, patternCost_of_notMem hs.notMem_star]
      rfl
  | true =>
      rw [if_pos rfl, splitOnP_of_notMem hs.notMem_star]
      show lastCost r s c.base + 0 = s.length + 0
      cases hbase : c.base with
      | nil =>
          rw [hbase] at hs
          have hlen := hs.length_le
          rw [List.length_nil, Nat.le_zero] at hlen
          rw [lastCost, hlen]
      | cons d w =>
          rw [hbase] at hle
          rw [lastCost, if_pos hle]

/-- Nor where a star takes the rest. -/
theorem Good.costs_star (h : c.Good r) (hrest : c.rest = [.star]) : c.Costs r 0 := by
  rw [Costs, h.total_star hrest, List.splitOnP_nil]
  show _ + lastCost r [] c.word = _
  rw [lastCost_nil]

end Scan

end TrIrcd.Lib
