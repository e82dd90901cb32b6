import Mathlib.Data.List.Basic
import TrIrcd.Src.Textedit

/-!
# Which requests `check_for_ctcp` finds

The scan stops at the first `\001`, whatever stands behind it: what is not a
`DCC` there is a request of another kind, if two characters or more follow, and a
byte behind the NUL is read to see this (`checkForCtcp_first`). So a request
behind another one is not found, and a `\001` at the end of the message takes the
scan out of it; in all other messages it finds what it should
(`ctcpFound_iff`).
-/

namespace TrIrcd

open TrIrcd.Lib

/-! ## Comparing and finding -/

/-- The text begins like this, in any case. -/
def StartsWith (pat s : List UInt8) : Prop := pat.map toUpper <+: s.map toUpper

instance (pat s : List UInt8) : Decidable (StartsWith pat s) :=
  inferInstanceAs (Decidable (pat.map toUpper <+: s.map toUpper))

theorem startsWith_cons {c d : UInt8} {pat s : List UInt8} :
    StartsWith (c :: pat) (d :: s) ↔ toUpper c = toUpper d ∧ StartsWith pat s := by
  rw [StartsWith, List.map_cons, List.map_cons, List.cons_prefix_cons, StartsWith]

theorem not_startsWith_nil {c : UInt8} {pat : List UInt8} : ¬ StartsWith (c :: pat) [] := by
  rintro ⟨t, ht⟩
  cases ht

section Compare

variable {c d : UInt8} {s1 s2 t pat : List UInt8} {n : Int}

theorem ircStrncmpIn_ne (h : toUpper d ≠ toUpper c) :
    ∃ res, ircStrncmpIn (d :: s1) (c :: s2) n = .ok res ∧ res ≠ 0 := by
  have hres := mt toNat_sub_eq_zero.mp h
  exact ⟨_, by rw [ircStrncmpIn]; exact if_pos hres, hres⟩

theorem ircStrncmpIn_eq (h : toUpper d = toUpper c) :
    ircStrncmpIn (d :: s1) (c :: s2) n =
      if n - 1 = 0 then .ok 0
      else if s1.head? = some 0 ∧ s2.head? = some 0 then .ok 0
      else ircStrncmpIn s1 s2 (n - 1) := by
  rw [ircStrncmpIn]
  exact if_neg (not_not.mpr (toNat_sub_eq_zero.mpr h))

theorem toUpper_zero_ne (hc : c ≠ 0) : toUpper 0 ≠ toUpper c :=
  fun h => hc (toUpper_eq_zero.mp (h.symm.trans (toUpper_eq_zero.mpr rfl)))

/-- It is over with the first character, if that is another one. -/
theorem ircStrncmpIn_first {s : List UInt8} (hc : c ≠ 0)
    (h : ∀ d s', s = d :: s' → toUpper d ≠ toUpper c) :
    ∃ res, ircStrncmpIn (s ++ 0 :: t) (c :: pat ++ [0]) n = .ok res ∧
      (res = 0 ↔ StartsWith (c :: pat) s) := by
  cases s with
  | nil =>
      obtain ⟨res, hres, hne⟩ := ircStrncmpIn_ne (toUpper_zero_ne hc)
      exact ⟨res, hres, iff_of_false hne not_startsWith_nil⟩
  | cons d s =>
      have hd := h d s rfl
      obtain ⟨res, hres, hne⟩ := ircStrncmpIn_ne hd
      exact ⟨res, hres, iff_of_false hne fun hs => hd (startsWith_cons.mp hs).1.symm⟩

/-- The comparison ends in the memory, and says whether the text begins so. -/
theorem ircStrncmpIn_spec : ∀ {pat : List UInt8} {c : UInt8} {s : List UInt8}, 0 ∉ c :: pat →
    ∃ res, ircStrncmpIn (s ++ 0 :: t) (c :: pat ++ [0]) (c :: pat).length = .ok res ∧
      (res = 0 ↔ StartsWith (c :: pat) s) := by
  intro pat
  induction pat with
  | nil =>
      intro c s h0
      have hc : c ≠ 0 := fun h => h0 (h ▸ List.mem_cons_self ..)
      by_cases hfirst : ∀ d s', s = d :: s' → toUpper d ≠ toUpper c
      · exact ircStrncmpIn_first hc hfirst
      · push Not at hfirst
        obtain ⟨d, s', rfl, hd⟩ := hfirst
        refine ⟨0, ?_, iff_of_true rfl (startsWith_cons.mpr ⟨hd.symm, List.nil_prefix⟩)⟩
        exact (ircStrncmpIn_eq hd).trans (if_pos rfl)
  | cons c' pat ih =>
      intro c s h0
      have hc : c ≠ 0 := fun h => h0 (h ▸ List.mem_cons_self ..)
      have hc' : c' ≠ 0 := fun h =>
        h0 (h ▸ List.mem_cons_of_mem c (List.mem_cons_self (a := c') (l := pat)))
      by_cases hfirst : ∀ d s', s = d :: s' → toUpper d ≠ toUpper c
      · exact ircStrncmpIn_first hc hfirst
      · push Not at hfirst
        obtain ⟨d, s', rfl, hd⟩ := hfirst
        obtain ⟨res, hres, hiff⟩ := ih (s := s') fun h => h0 (List.mem_cons_of_mem c h)
        have hn : ((c :: c' :: pat).length : Int) - 1 = (c' :: pat).length := by
          rw [List.length_cons]
          omega
        have hmore : ¬ ((c :: c' :: pat).length : Int) - 1 = 0 := by
          rw [hn, List.length_cons]
          omega
        have hend : ¬ ((s' ++ 0 :: t).head? = some 0 ∧ (c' :: pat ++ [0]).head? = some 0) :=
          fun h => hc' (Option.some.inj h.2)
        refine ⟨res, ?_, ?_⟩
        · rw [List.cons_append, List.cons_append, ircStrncmpIn_eq hd, if_neg hmore, if_neg hend, hn]
          exact hres
        · rw [hiff, startsWith_cons, and_iff_right hd.symm]

end Compare

/-! ## The scan -/

section Scan

variable {text a r : List UInt8}

theorem checkForCtcp_none (h0 : 0 ∉ text) (hnot : 1 ∉ text) :
    checkForCtcp (text ++ [0]) false = .ok (.none, none) := by
  rw [checkForCtcp, strchrIn_none (by decide) h0 hnot rfl]
  rfl

/-- The memory behind the first `\001`. -/
theorem drop_first (a r : List UInt8) : (a ++ 1 :: (r ++ [0])).drop (a.length + 1) = r ++ [0] :=
  drop_middle a (r ++ [0]) 1 0

/-- `DCC` behind the first `\001`. -/
theorem checkForCtcp_dcc (ha : 0 ∉ a) (hnot : 1 ∉ a) (h : StartsWith dccText r) :
    checkForCtcp (a ++ 1 :: (r ++ [0])) false =
      .ok (if StartsWith sendText (r.drop 3) then .dccsend else .dcc, some (a.length + 1)) := by
  have hlen : 3 ≤ r.length := by
    have hle := h.length_le
    rw [List.length_map, List.length_map] at hle
    exact hle
  have hdrop3 : (a ++ 1 :: (r ++ [0])).drop (a.length + 1 + 3) = r.drop 3 ++ [0] := by
    rw [← List.drop_drop, drop_first, List.drop_append_of_le_length hlen]
  have hdccText : (0 : UInt8) ∉ dccText := by decide
  have hsendText : (0 : UInt8) ∉ sendText := by decide
  have hdcc : ∃ res, ircStrncmpIn (r ++ [0]) (dccText ++ [0]) 3 = .ok res ∧
      (res = 0 ↔ StartsWith dccText r) := ircStrncmpIn_spec hdccText
  have hsend : ∃ res, ircStrncmpIn (r.drop 3 ++ [0]) (sendText ++ [0]) 5 = .ok res ∧
      (res = 0 ↔ StartsWith sendText (r.drop 3)) := ircStrncmpIn_spec hsendText
  obtain ⟨res, hres, hzero⟩ := hdcc
  obtain ⟨res', hres', hzero'⟩ := hsend
  rw [checkForCtcp, strchrIn_some ha hnot rfl, Nat.zero_add]
  show Except.bind (ircStrncmpIn ((a ++ 1 :: (r ++ [0])).drop (a.length + 1)) (dccText ++ [0]) 3) _ = _
  rw [drop_first, hres]
  show (if res = 0 then Except.bind (ircStrncmpIn ((a ++ 1 :: (r ++ [0])).drop (a.length + 1 + 3))
    (sendText ++ [0]) 5) _ else _) = _
  rw [if_pos (hzero.mpr h), hdrop3, hres']
  show (if res' = 0 then _ else _) = _
  rw [if_congr hzero' rfl rfl]
  split
  · rfl
  · rfl

/-- Anything else: the second byte behind it is read. -/
theorem checkForCtcp_other (ha : 0 ∉ a) (hnot : 1 ∉ a) (hr : 0 ∉ r) (h : ¬ StartsWith dccText r) :
    checkForCtcp (a ++ 1 :: (r ++ [0])) false =
      if r = [] then .error .outside
      else if r.length = 1 then .ok (.none, none) else .ok (.yes, none) := by
  have hdccText : (0 : UInt8) ∉ dccText := by decide
  have hdcc : ∃ res, ircStrncmpIn (r ++ [0]) (dccText ++ [0]) 3 = .ok res ∧
      (res = 0 ↔ StartsWith dccText r) := ircStrncmpIn_spec hdccText
  obtain ⟨res, hres, hzero⟩ := hdcc
  have hat : (a ++ 1 :: (r ++ [0]))[a.length + 1 + 1]? = (r ++ [0])[1]? := by
    rw [← List.getElem?_drop, drop_first]
  rw [checkForCtcp, strchrIn_some ha hnot rfl, Nat.zero_add]
  show Except.bind (ircStrncmpIn ((a ++ 1 :: (r ++ [0])).drop (a.length + 1)) (dccText ++ [0]) 3) _ = _
  rw [drop_first, hres]
  simp only [Except.bind, if_neg (mt hzero.mp h), hat]
  rcases r with _ | ⟨c, _ | ⟨d, r⟩⟩
  · rfl
  · rfl
  · have hd : d ≠ 0 := fun hd => hr (hd ▸ List.mem_cons_of_mem c (List.mem_cons_self ..))
    rw [if_neg (List.cons_ne_nil _ _), if_neg (by simp)]
    exact if_neg hd

end Scan

/-! ## What it should find -/

/-- A request to transfer files: `DCC` from this place on, and `\001` before. -/
def RequestAt (text : List UInt8) (j : Nat) : Prop :=
  1 ≤ j ∧ text[j - 1]? = some 1 ∧ StartsWith dccText (text.drop j)

/-- The first one. -/
def FirstRequest (text : List UInt8) (j : Nat) : Prop :=
  RequestAt text j ∧ ∀ i < j, ¬ RequestAt text i

/-- What the answer says of the message: there is nothing only if no `\001` has
two characters or more behind it, and the first request is found, as what it
is. -/
structure CtcpRight (text : List UInt8) (r : Ctcp × Option Nat) : Prop where
  none : r.1 = .none → ∀ i : Nat, text[i]? = some 1 → text.length ≤ i + 2
  dcc : (∃ j, RequestAt text j) →
    (r.1 = .dcc ∨ r.1 = .dccsend) ∧ ∃ j, r.2 = some j ∧ FirstRequest text j
  send : ∀ j, FirstRequest text j → StartsWith sendText (text.drop (j + 3)) → r.1 = .dccsend

/-- The scan stays in the message, and its answer is right. -/
def CtcpFound (text : List UInt8) : Prop :=
  ∃ r, checkForCtcp (text ++ [0]) false = .ok r ∧ CtcpRight text r

/-- The first `\001` is a request, or there is something behind it and no request
behind that. -/
def CtcpSeen (text : List UInt8) : Prop :=
  ∀ a r, text = a ++ 1 :: r → 1 ∉ a → r ≠ [] ∧ (StartsWith dccText r ∨ ∀ j, ¬ RequestAt r j)

section Found

variable {text a r : List UInt8}

theorem getElem?_behind (a r : List UInt8) (i : Nat) :
    (a ++ 1 :: r)[a.length + 1 + i]? = r[i]? := by
  rw [Nat.add_assoc, List.getElem?_append_right (Nat.le_add_right _ _), Nat.add_sub_cancel_left,
    Nat.add_comm 1 i, List.getElem?_cons_succ]

/-- A request is behind the first `\001` or behind what follows. -/
theorem requestAt_iff (hnot : 1 ∉ a) {j : Nat} :
    RequestAt (a ++ 1 :: r) j ↔
      j = a.length + 1 ∧ StartsWith dccText r ∨ ∃ i, j = a.length + 1 + i ∧ RequestAt r i := by
  constructor
  · rintro ⟨hj, hone, hdcc⟩
    have hle : a.length ≤ j - 1 := by
      by_contra hlt
      rw [List.getElem?_append_left (by omega)] at hone
      exact hnot (List.mem_of_getElem? hone)
    obtain ⟨i, rfl⟩ : ∃ i, j = a.length + 1 + i := ⟨j - (a.length + 1), by omega⟩
    rw [drop_middle] at hdcc
    cases i with
    | zero => exact .inl ⟨rfl, hdcc⟩
    | succ i =>
        have hprev : a.length + 1 + (i + 1) - 1 = a.length + 1 + i := by omega
        rw [hprev, getElem?_behind] at hone
        exact .inr ⟨i + 1, rfl, Nat.succ_pos i, hone, hdcc⟩
  · rintro (⟨rfl, hdcc⟩ | ⟨i, rfl, hi, hone, hdcc⟩)
    · refine ⟨Nat.succ_pos _, ?_, ?_⟩
      · rw [Nat.add_sub_cancel, getElem?_middle]
      · rw [← Nat.add_zero (a.length + 1), drop_middle]
        exact hdcc
    · have hprev : a.length + 1 + i - 1 = a.length + 1 + (i - 1) := by omega
      refine ⟨by omega, ?_, ?_⟩
      · rw [hprev, getElem?_behind]
        exact hone
      · rw [drop_middle]
        exact hdcc

theorem no_request (hnot : 1 ∉ text) (j : Nat) : ¬ RequestAt text j :=
  fun h => hnot (List.mem_of_getElem? h.2.1)

theorem split_zero (h0 : 0 ∉ a ++ 1 :: r) : 0 ∉ a ∧ 0 ∉ r :=
  ⟨fun h => h0 (List.mem_append_left _ h),
    fun h => h0 (List.mem_append_right a (List.mem_cons_of_mem 1 h))⟩

/-- The first `\001` is a request. -/
theorem ctcpFound_dcc (h0 : 0 ∉ a ++ 1 :: r) (hnot : 1 ∉ a) (hdcc : StartsWith dccText r) :
    CtcpFound (a ++ 1 :: r) := by
  have hfirst : FirstRequest (a ++ 1 :: r) (a.length + 1) := by
    refine ⟨(requestAt_iff hnot).mpr (.inl ⟨rfl, hdcc⟩), fun i hi h => ?_⟩
    rcases (requestAt_iff hnot).mp h with ⟨rfl, -⟩ | ⟨k, rfl, -⟩
    · omega
    · omega
  have hrun := checkForCtcp_dcc (split_zero h0).1 hnot hdcc
  rw [← List.cons_append, ← List.append_assoc] at hrun
  refine ⟨_, hrun, ?_, ?_, ?_⟩
  · intro h
    split at h
    · cases h
    · cases h
  · intro _
    refine ⟨?_, _, rfl, hfirst⟩
    split
    · exact .inr rfl
    · exact .inl rfl
  · intro j hj hsend
    have hsame : j = a.length + 1 := by
      rcases Nat.lt_trichotomy j (a.length + 1) with hlt | heq | hgt
      · exact absurd hj.1 (hfirst.2 j hlt)
      · exact heq
      · exact absurd hfirst.1 (hj.2 _ hgt)
    rw [hsame, drop_middle] at hsend
    exact if_pos hsend

/-- It is not, and nothing behind it is. -/
theorem ctcpFound_other (h0 : 0 ∉ a ++ 1 :: r) (hnot : 1 ∉ a) (hdcc : ¬ StartsWith dccText r) :
    CtcpFound (a ++ 1 :: r) ↔ r ≠ [] ∧ ∀ j, ¬ RequestAt r j := by
  have hrun := checkForCtcp_other (split_zero h0).1 hnot (split_zero h0).2 hdcc
  rw [← List.cons_append, ← List.append_assoc] at hrun
  rw [CtcpFound, hrun]
  constructor
  · rintro ⟨res, hres, hright⟩
    by_cases hr : r = []
    · rw [if_pos hr] at hres
      cases hres
    · refine ⟨hr, fun j hj => ?_⟩
      have hkind := (hright.dcc ⟨_, (requestAt_iff hnot).mpr (.inr ⟨j, rfl, hj⟩)⟩).1
      rw [if_neg hr] at hres
      split at hres
      · cases hres
        rcases hkind with h | h
        · cases h
        · cases h
      · cases hres
        rcases hkind with h | h
        · cases h
        · cases h
  · rintro ⟨hr, hnone⟩
    have hrequest : ∀ j, ¬ RequestAt (a ++ 1 :: r) j := by
      intro j h
      rcases (requestAt_iff hnot).mp h with ⟨-, h⟩ | ⟨i, -, h⟩
      · exact hdcc h
      · exact hnone i h
    rw [if_neg hr]
    by_cases hone : r.length = 1
    · rw [if_pos hone]
      refine ⟨_, rfl, fun _ i hi => ?_, fun ⟨j, h⟩ => absurd h (hrequest j),
        fun j h => absurd h.1 (hrequest j)⟩
      have hle : a.length ≤ i := by
        by_contra hlt
        rw [List.getElem?_append_left (by omega)] at hi
        exact hnot (List.mem_of_getElem? hi)
      rw [List.length_append, List.length_cons, hone]
      omega
    · rw [if_neg hone]
      refine ⟨_, rfl, fun h => ?_, fun ⟨j, h⟩ => absurd h (hrequest j),
        fun j h => absurd h.1 (hrequest j)⟩
      cases h

/-- In which messages the scan finds what it should. -/
theorem ctcpFound_iff (h0 : 0 ∉ text) : CtcpFound text ↔ CtcpSeen text := by
  by_cases hone : 1 ∈ text
  · obtain ⟨a, r, rfl, hnot⟩ := List.eq_append_cons_of_mem hone
    have hseen : CtcpSeen (a ++ 1 :: r) ↔ r ≠ [] ∧ (StartsWith dccText r ∨ ∀ j, ¬ RequestAt r j) := by
      refine ⟨fun h => h a r rfl hnot, fun h a' r' heq hnot' => ?_⟩
      obtain ⟨-, rfl⟩ := cut_unique hnot hnot' heq
      exact h
    rw [hseen]
    by_cases hdcc : StartsWith dccText r
    · refine iff_of_true (ctcpFound_dcc h0 hnot hdcc) ⟨?_, .inl hdcc⟩
      rintro rfl
      exact not_startsWith_nil hdcc
    · rw [ctcpFound_other h0 hnot hdcc, or_iff_right hdcc]
  · refine iff_of_true ⟨_, checkForCtcp_none h0 hone, fun _ i hi => ?_, ?_, ?_⟩ ?_
    · exact absurd (List.mem_of_getElem? hi) hone
    · rintro ⟨j, h⟩
      exact absurd h (no_request hone j)
    · exact fun j h => absurd h.1 (no_request hone j)
    · rintro a r rfl
      exact absurd (List.mem_append_right a (List.mem_cons_self ..)) hone

/-- A file that is sent, behind ordinary text. -/
theorem ctcpFound_send : CtcpFound ([0x61] ++ 1 :: (dccText ++ sendText)) := by
  refine (ctcpFound_iff (by decide)).mpr fun a r h hnot => ?_
  have hfirst : (1 : UInt8) ∉ [(0x61 : UInt8)] := by decide
  obtain ⟨-, rfl⟩ := cut_unique hfirst hnot h
  exact ⟨by decide, .inl (by decide)⟩

/-- `\001` alone, and a file that is sent behind another request. -/
theorem ctcp_missed : ¬ CtcpFound [1] ∧ ¬ CtcpFound ([1, 0x56, 1] ++ dccText ++ sendText) := by
  constructor
  · rintro ⟨r, hrun, -⟩
    have houtside : checkForCtcp ([1] ++ [0]) false = .error .outside := by decide
    cases houtside.symm.trans hrun
  · rintro ⟨r, hrun, hright⟩
    have hyes : checkForCtcp ([1, 0x56, 1] ++ dccText ++ sendText ++ [0]) false = .ok (.yes, none) := by
      decide
    cases hyes.symm.trans hrun
    have hrequest : RequestAt ([1, 0x56, 1] ++ dccText ++ sendText) 3 := ⟨by decide, by decide, by decide⟩
    rcases (hright.dcc ⟨3, hrequest⟩).1 with h | h
    · cases h
    · cases h

end Found

end TrIrcd
