import TrIrcd.Lib.GlobCost
import TrIrcd.Proofs.MaskLanguage
import TrIrcd.Src.Whowas

/-!
# When `match` gives up

Every turn of `match` is one comparison of its search (`Costs.compare`), and
what it needs in all is the cost of the pattern (`patternCost`). So a name of
the language is accepted exactly if that is less than `MATCH_MAX_CALLS`. Only
the mask `*` has turns without a comparison.
-/

namespace TrIrcd

open TrIrcd.Lib

variable {mask name : List UInt8}

/-- No other mask ends in a star that `match` does not see from the end. -/
theorem not_star_suffix (hslash : 0x5c ∉ mask) (hne : mask ≠ [0x2a]) (htail : maskTail mask = []) :
    ¬ [.star] <:+ readToks mask := by
  rw [readToks, htail, List.append_nil, maskToks_of_notMem hslash]
  rintro ⟨p, hp⟩
  obtain ⟨pre, last, rfl, -, hlast⟩ := List.map_eq_append_iff.mp hp.symm
  obtain ⟨c, rest, rfl, hc, hrest⟩ := List.map_eq_cons_iff.mp hlast
  rw [List.map_eq_nil_iff] at hrest
  subst hrest
  have hstar : c = 0x2a := by
    rw [plainTok] at hc
    split at hc
    · next h => exact h
    · split at hc
      · cases hc
      · cases hc
  subst hstar
  obtain ⟨n, hn⟩ : ∃ n, pre.length = n + 1 := by
    refine ⟨pre.length - 1, (Nat.succ_pred_eq_of_pos (List.length_pos_iff.mpr ?_)).symm⟩
    rintro rfl
    exact hne rfl
  have hget : (pre ++ [0x2a]).getD (n + 1) 0 = 0x2a := by
    rw [← hn, List.getD_append_right _ _ _ _ (Nat.le_refl _), Nat.sub_self]
    rfl
  have hback : skipBack (pre ++ [0x2a]) ((pre ++ [0x2a]).length - 1) = n + 1 := by
    rw [List.length_append, hn, List.length_singleton, Nat.add_sub_cancel, skipBack, hget]
    exact if_neg (by decide)
  rw [maskTail, starTail, hback, hget] at htail
  simp at htail

/-- What a search pays that goes from star to star pays a search of `match`. -/
theorem Skips.costs {c c' : Scan UInt8 UInt8} {k : Nat} (h : Skips c c')
    (hgood : c.Good SameLetter) (hk : c'.Costs SameLetter k) : c.Costs SameLetter k := by
  rcases h with rfl | ⟨j, p, hrest, rfl⟩
  · exact hk
  · exact Scan.Costs.skips j hk hgood hrest

theorem Skips.good {c c' : Scan UInt8 UInt8} (h : Skips c c') (hgood : c.Good SameLetter) :
    c'.Good SameLetter ∧ (c.Accepts SameLetter ↔ c'.Accepts SameLetter) := by
  rcases h with rfl | ⟨j, p, hrest, rfl⟩
  · exact ⟨hgood, Iff.rfl⟩
  · exact hgood.skips j hrest

theorem Found.costs {c : Scan UInt8 UInt8} (h : Found c) (hgood : c.Good SameLetter) :
    c.Costs SameLetter 0 := by
  rcases h with ⟨hrest, hword⟩ | hrest
  · exact hgood.costs_end hrest hword
  · exact hgood.costs_star hrest

/-- A walk of one turn is one comparison, unless nothing is behind the star. -/
theorem Walks.costs {c c' : Scan UInt8 UInt8} {k : Nat} (h : Walks c c')
    (hgood : c.Good SameLetter) (hacc : c.Accepts SameLetter)
    (hback : c.rest = [] → c.wild = true → c.back ≠ []) (hk : c'.Costs SameLetter k) :
    c.Costs SameLetter (k + 1) := by
  rcases h with h | ⟨hrest, hne, hwild, h | ⟨hnil, -⟩⟩
  · exact hk.compare hgood hacc h
  · obtain ⟨hgood', hiff⟩ := hgood.retry (.inl ⟨hrest, hne⟩) hwild
    exact (hk.compare hgood' (hiff.mp hacc) h).retry hgood hrest hwild hne
  · exact absurd hnil (hback hrest hwild)

theorem matchLoop_zero_ne {s : MatchSt} : matchLoop mask name 0 s ≠ 0 := by
  rw [matchLoop]
  decide

/-- The loop finds what there is to find exactly if it may turn once more than
there are comparisons left. -/
theorem matchLoop_costs (hmask : 0 ∉ mask) (hname : 0 ∉ name) (hslash : 0x5c ∉ mask)
    (hne : mask ≠ [0x2a]) : ∀ n {s : MatchSt} {c : Scan UInt8 UInt8},
      turnsLeft mask name s < n → Turning mask name s c → c.Accepts SameLetter →
      ∃ k, c.Costs SameLetter k ∧ ∀ calls, matchLoop mask name calls s = 0 ↔ k < calls := by
  intro n
  induction n with
  | zero => exact fun hn => absurd hn (Nat.not_lt_zero _)
  | succ n ih =>
      intro s c hn h hacc
      have hgood := h.scan.good
      rcases matchTurn_spec hmask hname (steady_of_notMem hslash name) h with
        ⟨ret, hret, hzero, hfound⟩ | ⟨s', c', hok, hturn, hless, hiff, hmove⟩
      · have h0 := hzero.mpr hacc
        obtain ⟨c₁, hskips, hfound⟩ := hfound h0
        refine ⟨0, hskips.costs hgood (hfound.costs (hskips.good hgood).1), fun calls => ?_⟩
        cases calls with
        | zero => exact iff_of_false matchLoop_zero_ne (Nat.not_lt_zero _)
        | succ calls =>
            rw [matchLoop, hret]
            exact iff_of_true h0 (Nat.succ_pos _)
      · obtain ⟨k, hk, hloop⟩ := ih (by omega) hturn (hiff.mp hacc)
        rcases hmove with ⟨-, hb⟩ | ⟨c₁, hskips, htail, hwalk⟩
        · have hlt := (@drop_of_getD mask s.m (by rw [hb]; decide)).2
          rw [List.getD_eq_getElem _ _ hlt] at hb
          exact absurd (hb ▸ List.getElem_mem hlt) hslash
        · obtain ⟨hgood₁, hiff₁⟩ := hskips.good hgood
          have hback : c₁.rest = [] → c₁.wild = true → c₁.back ≠ [] := by
            intro hrest hwild hnil
            obtain ⟨v, j, harr, -⟩ := (hskips.tracked h.tracked hgood).arrived hwild
            rw [hrest, List.suffix_nil] at htail
            rw [hnil] at harr
            exact not_star_suffix hslash hne htail harr.suffix
          refine ⟨k + 1, hskips.costs hgood (hwalk.costs hgood₁ (hiff₁.mp hacc) hback hk),
            fun calls => ?_⟩
          cases calls with
          | zero => exact iff_of_false matchLoop_zero_ne (Nat.not_lt_zero _)
          | succ calls =>
              rw [matchLoop, hok]
              exact (hloop calls).trans (Nat.succ_lt_succ_iff).symm

/-- `match` accepts a name of the language exactly if the search for it is not
too long. -/
theorem ircMatch_cost (hmask : 0 ∉ mask) (hname : 0 ∉ name) (hslash : 0x5c ∉ mask)
    (hlen : name.length ≤ nickLen + userLen + hostLen + 2) :
    ircMatch mask name = 0 ↔
      InMask mask name ∧ patternCost SameLetter (readToks mask) name < matchMaxCalls := by
  have hpaired := unpaired_of_notMem hslash
  have hsteady := steady_of_notMem hslash name
  rw [← matches_readToks hslash]
  by_cases hne : mask = [0x2a]
  · subst hne
    have hcost : patternCost SameLetter (readToks [0x2a]) name = 0 := by
      have htoks : readToks [0x2a] = [] ++ .star :: [] := by decide
      rw [htoks, patternCost_star List.not_mem_nil, List.splitOnP_nil, List.length_nil, Nat.zero_add]
      exact lastCost_nil name
    have hsmall : (([0x2a] : List UInt8).length + 2) * (name.length + 2) ≤ matchMaxCalls := by
      have hname : name.length ≤ 105 := hlen
      show 3 * (name.length + 2) ≤ 512
      omega
    rw [ircMatch_iff hmask hname hpaired hsteady hsmall, hcost]
    exact (and_iff_left (by decide)).symm
  · have hstart : Turning mask name {} (Scan.start (readToks mask) name) := start_turning hpaired
    have hiff : Matches SameLetter (readToks mask) name →
        (ircMatch mask name = 0 ↔ patternCost SameLetter (readToks mask) name < matchMaxCalls) := by
      intro hacc
      obtain ⟨k, hk, hloop⟩ :=
        matchLoop_costs hmask hname hslash hne _ (Nat.lt_succ_self _) hstart hacc
      have hcost : k = patternCost SameLetter (readToks mask) name :=
        Nat.add_left_cancel (hk.symm.trans (Scan.start_costs _ _))
      rw [← hcost]
      exact hloop matchMaxCalls
    constructor
    · intro h
      have hacc := ircMatch_sound hmask hname hpaired hsteady h
      exact ⟨hacc, (hiff hacc).mp h⟩
    · exact fun h => (hiff h.1).mpr h.2

/-- The cap on the turns loses a name of the language exactly if the search for
it takes as many comparisons. -/
theorem match_capped_iff (hmask : 0 ∉ mask) (hname : 0 ∉ name) (hslash : 0x5c ∉ mask)
    (hlen : name.length ≤ nickLen + userLen + hostLen + 2) :
    (InMask mask name → ircMatch mask name = 0) ↔
      (InMask mask name → patternCost SameLetter (readToks mask) name < matchMaxCalls) := by
  rw [ircMatch_cost hmask hname hslash hlen]
  exact ⟨fun h hin => (h hin).2, fun h hin => ⟨hin, h hin⟩⟩

/-- `a*b` finds its `b` in `axb` at the second try. -/
theorem match_capped_axb : ircMatch [0x61, 0x2a, 0x62] [0x61, 0x78, 0x62] = 0 :=
  (match_capped_iff (by decide) (by decide) (by decide) (by decide)).mpr
    (fun _ => by decide) (by decide)

/-- Twenty times `a` and a `b` behind a star, and a host that is all `a` up to
its `b`. -/
theorem match_capped_lost :
    let mask := 0x2a :: List.replicate 20 0x61 ++ [0x62]
    let name := List.replicate 100 0x61 ++ [0x62]
    0x5c ∉ mask ∧ mask.length ≤ nickLen + userLen + hostLen + 2 ∧
      name.length ≤ nickLen + userLen + hostLen + 2 ∧ InMask mask name ∧ ircMatch mask name = 1 := by
  decide +kernel

end TrIrcd
