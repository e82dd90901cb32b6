import Mathlib.Data.List.Infix

/-!
# Patterns with wild cards

A pattern is a list of tokens: any run, any one symbol, or a letter that a
relation compares with a symbol. Between two stars there is a segment, which
is in a word at fixed places once its first place is known, and a star may
give up what stands left of the first place where the next segment fits: a
match that exists is found behind it (`matches_leftmost`). That is why a
matcher needs to go back to the last star only.
-/

namespace TrIrcd.Lib

inductive Tok (α : Type)
  | star
  | any
  | lit (c : α)
  deriving DecidableEq, Repr

variable {α β : Type} (r : α → β → Prop)

/-- A token for one symbol, and a symbol for it. -/
def Tok.Takes : Tok α → β → Prop
  | .star, _ => False
  | .any, _ => True
  | .lit c, d => r c d

/-- The language of a pattern. -/
def Matches : List (Tok α) → List β → Prop
  | [], w => w = []
  | .star :: p, w => ∃ v, v <:+ w ∧ Matches p v
  | .any :: p, w => ∃ d v, w = d :: v ∧ Matches p v
  | .lit c :: p, w => ∃ d v, w = d :: v ∧ r c d ∧ Matches p v

/-- The word begins with symbols for the tokens. -/
def Starts : List (Tok α) → List β → Prop
  | [], _ => True
  | _ :: _, [] => False
  | t :: s, d :: w => t.Takes r d ∧ Starts s w

section Decidable

variable [∀ c d, Decidable (r c d)]

instance Tok.decidableTakes : ∀ (t : Tok α) (d : β), Decidable (t.Takes r d)
  | .star, _ => .isFalse id
  | .any, _ => .isTrue trivial
  | .lit c, d => inferInstanceAs (Decidable (r c d))

instance decidableStarts : ∀ (s : List (Tok α)) (w : List β), Decidable (Starts r s w)
  | [], _ => .isTrue trivial
  | _ :: _, [] => .isFalse id
  | t :: s, d :: w =>
      have := decidableStarts s w
      inferInstanceAs (Decidable (t.Takes r d ∧ Starts r s w))

instance decidableMatches [DecidableEq β] :
    ∀ (p : List (Tok α)) (w : List β), Decidable (Matches r p w)
  | [], w => inferInstanceAs (Decidable (w = []))
  | .star :: p, w =>
      have := decidableMatches p
      decidable_of_iff (∃ v ∈ w.tails, Matches r p v)
        ⟨fun ⟨v, hv, h⟩ => ⟨v, (List.mem_tails _ _).mp hv, h⟩,
          fun ⟨v, hv, h⟩ => ⟨v, (List.mem_tails _ _).mpr hv, h⟩⟩
  | .any :: _, [] => .isFalse fun ⟨_, _, h, _⟩ => List.cons_ne_nil _ _ h.symm
  | .any :: p, d :: w =>
      have := decidableMatches p w
      decidable_of_iff (Matches r p w)
        ⟨fun h => ⟨d, w, rfl, h⟩, fun ⟨_, _, h, hm⟩ => (List.cons.inj h).2 ▸ hm⟩
  | .lit _ :: _, [] => .isFalse fun ⟨_, _, h, _⟩ => List.cons_ne_nil _ _ h.symm
  | .lit c :: p, d :: w =>
      have := decidableMatches p w
      decidable_of_iff (r c d ∧ Matches r p w)
        ⟨fun h => ⟨d, w, rfl, h⟩,
          fun ⟨_, _, h, hc, hm⟩ => ⟨(List.cons.inj h).1 ▸ hc, (List.cons.inj h).2 ▸ hm⟩⟩

end Decidable

variable {r} {p q s : List (Tok α)} {t : Tok α} {w v : List β} {d : β}

/-! ## Tokens for one symbol -/

theorem Tok.Takes.ne_star (h : t.Takes r d) : t ≠ .star := by
  rintro rfl
  exact h

theorem matches_cons_iff (ht : t ≠ .star) :
    Matches r (t :: p) w ↔ ∃ d v, w = d :: v ∧ t.Takes r d ∧ Matches r p v := by
  cases t with
  | star => exact absurd rfl ht
  | any => simp [Matches, Tok.Takes]
  | lit c => rfl

theorem Starts.length_le : ∀ {s : List (Tok α)} {w : List β}, Starts r s w → s.length ≤ w.length
  | [], _, _ => Nat.zero_le _
  | _ :: _, [], h => h.elim
  | _ :: _, _ :: _, h => Nat.succ_le_succ (Starts.length_le h.2)

theorem Starts.notMem_star : ∀ {s : List (Tok α)} {w : List β}, Starts r s w → .star ∉ s
  | [], _, _ => List.not_mem_nil
  | _ :: _, [], h => h.elim
  | t :: s, _ :: _, h => by
      rw [List.mem_cons, not_or]
      exact ⟨h.1.ne_star.symm, Starts.notMem_star h.2⟩

theorem starts_append : ∀ {s : List (Tok α)} {w : List β},
    Starts r (s ++ p) w ↔ Starts r s w ∧ Starts r p (w.drop s.length)
  | [], _ => by simp [Starts]
  | _ :: _, [] => by simp [Starts]
  | t :: s, d :: w => by
      simp only [List.cons_append, Starts, List.length_cons, List.drop_succ_cons, starts_append,
        and_assoc]

/-- A pattern that begins without a star. -/
theorem matches_append : ∀ {s : List (Tok α)} {w : List β}, .star ∉ s →
    (Matches r (s ++ p) w ↔ Starts r s w ∧ Matches r p (w.drop s.length))
  | [], w, _ => by simp [Starts]
  | t :: s, [], hs => by
      rw [List.mem_cons, not_or] at hs
      rw [List.cons_append, matches_cons_iff (Ne.symm hs.1)]
      simp [Starts]
  | t :: s, d :: w, hs => by
      rw [List.mem_cons, not_or] at hs
      rw [List.cons_append, matches_cons_iff (Ne.symm hs.1), List.length_cons,
        List.drop_succ_cons, Starts]
      constructor
      · rintro ⟨_, _, h, ht, hm⟩
        cases h
        exact ⟨⟨ht, ((matches_append hs.2).mp hm).1⟩, ((matches_append hs.2).mp hm).2⟩
      · rintro ⟨⟨ht, hst⟩, hm⟩
        exact ⟨d, w, rfl, ht, (matches_append hs.2).mpr ⟨hst, hm⟩⟩

theorem Starts.matches_iff (h : Starts r s w) :
    Matches r (s ++ p) w ↔ Matches r p (w.drop s.length) := by
  rw [matches_append h.notMem_star, and_iff_right h]

/-! ## Stars -/

theorem matches_star_of_suffix (hv : v <:+ w) (h : Matches r (.star :: p) v) :
    Matches r (.star :: p) w := by
  obtain ⟨u, hu, hm⟩ := h
  exact ⟨u, hu.trans hv, hm⟩

theorem matches_star_of (h : Matches r p w) : Matches r (.star :: p) w :=
  ⟨w, List.suffix_rfl, h⟩

/-- A star takes the first symbol or does not. -/
theorem matches_star_cons :
    Matches r (.star :: p) (d :: w) ↔ Matches r p (d :: w) ∨ Matches r (.star :: p) w := by
  constructor
  · rintro ⟨v, hv, h⟩
    rcases List.suffix_cons_iff.mp hv with rfl | hv
    · exact .inl h
    · exact .inr ⟨v, hv, h⟩
  · rintro (h | h)
    · exact matches_star_of h
    · exact matches_star_of_suffix (List.suffix_cons d w) h

/-- Where the rest does not match, the star goes on. -/
theorem matches_star_drop (h : ¬ Matches r p w) :
    Matches r (.star :: p) w ↔ Matches r (.star :: p) (w.drop 1) := by
  cases w with
  | nil => rfl
  | cons d w =>
      rw [matches_star_cons, or_iff_right h]
      rfl

/-- Only a star at the end is needed. -/
theorem matches_star_end : Matches r [.star] w := ⟨[], List.nil_suffix, rfl⟩

/-- A star that takes nothing. -/
theorem Matches.append_star : ∀ {p : List (Tok α)} {w : List β}, Matches r p w →
    Matches r (p ++ [.star]) w
  | [], _, _ => TrIrcd.Lib.matches_star_end
  | .star :: _, _, ⟨v, hv, h⟩ => ⟨v, hv, Matches.append_star h⟩
  | .any :: _, _, ⟨d, v, hw, h⟩ => ⟨d, v, hw, Matches.append_star h⟩
  | .lit _ :: _, _, ⟨d, v, hw, hc, h⟩ => ⟨d, v, hw, hc, Matches.append_star h⟩

theorem Starts.matches_star_end (h : Starts r s w) : Matches r (s ++ [.star]) w :=
  h.matches_iff.mpr TrIrcd.Lib.matches_star_end

/-- Behind a place where a segment fits, the next star has all it needs. -/
theorem matches_leftmost (h : Starts r s w) :
    Matches r (.star :: (s ++ .star :: p)) w ↔ Matches r (.star :: p) (w.drop s.length) := by
  constructor
  · rintro ⟨v, hv, hm⟩
    rw [matches_append h.notMem_star] at hm
    refine matches_star_of_suffix ?_ hm.2
    obtain ⟨u, rfl⟩ := hv
    have hdrop : v.drop s.length =
        (v.drop (s.length - u.length)).drop (s.length - (s.length - u.length)) := by
      rw [List.drop_drop]
      congr 1
      omega
    rw [List.drop_append, hdrop]
    exact (List.drop_suffix _ _).trans (List.suffix_append _ _)
  · exact fun hm => matches_star_of (h.matches_iff.mpr hm)

theorem starts_replicate_any : ∀ (k : Nat) {w : List β}, k ≤ w.length →
    Starts r (List.replicate k .any) w
  | 0, _, _ => trivial
  | k + 1, [], h => absurd h (Nat.not_succ_le_zero k)
  | k + 1, _ :: _, h => ⟨trivial, starts_replicate_any k (Nat.le_of_succ_le_succ h)⟩

/-- A star behind a star and tokens for any symbol adds nothing. -/
theorem matches_star_any (k : Nat) (w : List β) :
    Matches r (.star :: (List.replicate k .any ++ [.star])) w ↔
      Matches r (.star :: List.replicate k .any) w := by
  have hnotin : Tok.star ∉ List.replicate k (Tok.any : Tok α) := fun h => by
    cases List.eq_of_mem_replicate h
  constructor
  · rintro ⟨v, hv, h⟩
    rw [matches_append hnotin] at h
    have hlen := h.1.length_le
    rw [List.length_replicate] at hlen
    -- The last symbols of `v` are as many as the tokens.
    refine ⟨v.drop (v.length - k), (List.drop_suffix _ _).trans hv, ?_⟩
    have hk : (v.drop (v.length - k)).length = k := by
      rw [List.length_drop]
      omega
    have hm := @Starts.matches_iff _ _ r [] _ _ (starts_replicate_any k (Nat.le_of_eq hk.symm))
    rw [List.append_nil] at hm
    rw [hm, List.length_replicate, List.drop_of_length_le (Nat.le_of_eq hk)]
    rfl
  · rintro ⟨v, hv, h⟩
    have hm := @matches_append _ _ r [] _ v hnotin
    rw [List.append_nil] at hm
    exact ⟨v, hv, (hm.mp h).1.matches_star_end⟩

/-- Patterns with the same words have the same words behind a beginning. -/
theorem matches_append_congr (h : ∀ w, Matches r p w ↔ Matches r q w) :
    ∀ (s : List (Tok α)) (w : List β), Matches r (s ++ p) w ↔ Matches r (s ++ q) w
  | [], w => h w
  | .star :: s, _ => exists_congr fun v => and_congr_right fun _ => matches_append_congr h s v
  | .any :: s, _ => exists_congr fun _ => exists_congr fun v => and_congr_right fun _ =>
      matches_append_congr h s v
  | .lit _ :: s, _ => exists_congr fun _ => exists_congr fun v => and_congr_right fun _ =>
      and_congr_right fun _ => matches_append_congr h s v

/-- What comes after a segment needs room. -/
theorem not_matches_of_length (hs : .star ∉ s) (ht : t ≠ .star) (hlen : w.length ≤ s.length) :
    ¬ Matches r (s ++ t :: p) w := by
  rw [matches_append hs, matches_cons_iff ht]
  rintro ⟨-, d, v, h, -⟩
  rw [List.drop_of_length_le hlen] at h
  cases h

theorem not_matches_star_of_length (hs : .star ∉ s) (ht : t ≠ .star)
    (hlen : w.length ≤ s.length) : ¬ Matches r (.star :: (s ++ t :: p)) w := by
  rintro ⟨v, hv, h⟩
  exact not_matches_of_length hs ht (hv.length_le.trans hlen) h

/-- Without a star behind it, a segment takes as many symbols as it has
tokens. -/
theorem not_matches_of_lt (h : Starts r s w) (hlen : s.length < w.length) : ¬ Matches r s w := by
  have hm := @Starts.matches_iff α β r [] s w h
  rw [List.append_nil] at hm
  rw [hm, Matches, List.drop_eq_nil_iff]
  exact Nat.not_le.mpr hlen

/-! ## Patterns against patterns -/

/-- A word in the language of two patterns, one behind the other. -/
theorem matches_split : ∀ {p q : List (Tok α)} {w : List β}, Matches r (p ++ q) w →
    ∃ v, v <:+ w ∧ Matches r q v
  | [], _, w, h => ⟨w, List.suffix_rfl, h⟩
  | .star :: _, _, _, ⟨_, hv, h⟩ =>
      let ⟨u, hu, hm⟩ := matches_split h
      ⟨u, hu.trans hv, hm⟩
  | .any :: _, _, _, ⟨_, _, hw, h⟩ =>
      let ⟨u, hu, hm⟩ := matches_split h
      ⟨u, hw ▸ hu.trans (List.suffix_cons _ _), hm⟩
  | .lit _ :: _, _, _, ⟨_, _, hw, _, h⟩ =>
      let ⟨u, hu, hm⟩ := matches_split h
      ⟨u, hw ▸ hu.trans (List.suffix_cons _ _), hm⟩

/-- The token takes one symbol, and whatever it takes the other takes too. -/
def Tok.Over (r : α → β → Prop) (t u : Tok α) : Prop := u ≠ .star ∧ ∀ d, u.Takes r d → t.Takes r d

/-- A pattern that is to be compared with another one: its stars are stars, and
each other token is a letter. -/
def Tok.lift : Tok α → Tok (Tok α)
  | .star => .star
  | t => .lit t

/-- A pattern that takes the tokens of another takes all its words. -/
theorem Matches.includes : ∀ {p q : List (Tok α)}, Matches (Tok.Over r) (p.map Tok.lift) q →
    ∀ {w : List β}, Matches r q w → Matches r p w
  | [], _, rfl, _, h => h
  | .star :: _, _, ⟨_, ⟨_, rfl⟩, h⟩, _, hw =>
      let ⟨u, hu, hm⟩ := matches_split hw
      ⟨u, hu, h.includes hm⟩
  | .any :: _, _, ⟨_, _, rfl, hover, h⟩, _, hw =>
      let ⟨d, v, hv, _, hm⟩ := (matches_cons_iff hover.1).mp hw
      ⟨d, v, hv, h.includes hm⟩
  | .lit _ :: _, _, ⟨_, _, rfl, hover, h⟩, _, hw =>
      let ⟨d, v, hv, ht, hm⟩ := (matches_cons_iff hover.1).mp hw
      ⟨d, v, hv, hover.2 d ht, h.includes hm⟩

/-! ## One place to go back to -/

/-- A search: the pattern and the word behind the last star, and what of both
is not compared yet. Before the first star there is nothing to go back to. -/
structure Scan (α β : Type) where
  wild : Bool
  back : List (Tok α)
  rest : List (Tok α)
  base : List β
  word : List β

namespace Scan

def start (p : List (Tok α)) (w : List β) : Scan α β := ⟨false, p, p, w, w⟩

/-- A star is met. -/
def skip (c : Scan α β) (p : List (Tok α)) : Scan α β := ⟨true, p, p, c.word, c.word⟩

/-- A token takes a symbol. -/
def advance (c : Scan α β) : Scan α β := { c with rest := c.rest.tail, word := c.word.tail }

/-- The search goes back, and the star takes one symbol more. -/
def retry (c : Scan α β) : Scan α β :=
  { c with rest := c.back, base := c.base.drop 1, word := c.base.drop 1 }

/-- What was compared fits. -/
def Good (r : α → β → Prop) (c : Scan α β) : Prop :=
  ∃ s, c.back = s ++ c.rest ∧ Starts r s c.base ∧ c.word = c.base.drop s.length

/-- The word is one that the search should find. -/
def Accepts (r : α → β → Prop) (c : Scan α β) : Prop :=
  Matches r (if c.wild then .star :: c.back else c.back) c.base

/-- What is left of the segment does not fit. -/
def Fails (r : α → β → Prop) (c : Scan α β) : Prop :=
  (c.rest = [] ∧ c.word ≠ []) ∨
    ∃ t p d v, c.rest = t :: p ∧ c.word = d :: v ∧ t ≠ .star ∧ ¬ t.Takes r d

/-- A comparison, and what comes of it. -/
inductive Compare (r : α → β → Prop) : Scan α β → Scan α β → Prop
  | take {c : Scan α β} {t : Tok α} {p : List (Tok α)} {d : β} {v : List β} :
      c.rest = t :: p → c.word = d :: v → t.Takes r d → Compare r c c.advance
  | miss {c : Scan α β} {t : Tok α} {p : List (Tok α)} {d : β} {v : List β} :
      c.rest = t :: p → c.word = d :: v → t ≠ .star → ¬ t.Takes r d → c.wild = true →
      Compare r c c.retry

variable {c c' : Scan α β}

theorem start_good (p : List (Tok α)) (w : List β) : (start p w).Good r :=
  ⟨[], rfl, trivial, rfl⟩

theorem Good.skip (h : c.Good r) (hrest : c.rest = .star :: p) :
    (c.skip p).Good r ∧ (c.Accepts r ↔ (c.skip p).Accepts r) := by
  refine ⟨⟨[], rfl, trivial, rfl⟩, ?_⟩
  obtain ⟨s, hback, hs, hword⟩ := h
  rw [hrest] at hback
  show _ ↔ Matches r (.star :: p) c.word
  rw [Accepts, hback, hword]
  cases c.wild with
  | false => exact hs.matches_iff
  | true => exact matches_leftmost hs

/-- Several stars are one. -/
theorem Good.skips : ∀ (k : Nat) {c : Scan α β}, c.Good r →
    c.rest = List.replicate (k + 1) .star ++ p →
    (c.skip p).Good r ∧ (c.Accepts r ↔ (c.skip p).Accepts r)
  | 0, _, h, hrest => h.skip hrest
  | k + 1, c, h, hrest => by
      obtain ⟨hgood, hiff⟩ := @Good.skip _ _ _ (List.replicate (k + 1) .star ++ p) c h
        (by rw [hrest, List.replicate_succ, List.cons_append])
      obtain ⟨hgood', hiff'⟩ := hgood.skips k rfl
      exact ⟨hgood', hiff.trans hiff'⟩

theorem Good.advance (h : c.Good r) (hrest : c.rest = t :: p) (hword : c.word = d :: v)
    (ht : t.Takes r d) : c.advance.Good r := by
  obtain ⟨s, hback, hs, hw⟩ := h
  have hdrop : c.base.drop s.length = d :: v := by rw [← hw, hword]
  refine ⟨s ++ [t], ?_, starts_append.mpr ⟨hs, ?_⟩, ?_⟩
  · rw [List.append_assoc, Scan.advance, hback, hrest]
    rfl
  · show Starts r [t] (c.base.drop s.length)
    rw [hdrop]
    exact ⟨ht, trivial⟩
  · show c.word.tail = c.base.drop (s ++ [t]).length
    rw [List.length_append, ← List.drop_drop, hdrop, hword]
    rfl

/-- A segment that fails is not where the star ends. -/
theorem Good.not_matches (h : c.Good r) (hf : c.Fails r) : ¬ Matches r c.back c.base := by
  obtain ⟨s, hback, hs, hword⟩ := h
  rcases hf with ⟨hrest, hne⟩ | ⟨t, p, d, v, hrest, hw, ht, hno⟩
  · rw [hback, hrest, List.append_nil]
    refine not_matches_of_lt hs (Nat.lt_of_not_le fun hle => hne ?_)
    rw [hword, List.drop_of_length_le hle]
  · rw [hback, hrest, hs.matches_iff, ← hword, hw, matches_cons_iff ht]
    rintro ⟨_, _, h, htake, -⟩
    cases h
    exact hno htake

theorem Good.retry (h : c.Good r) (hf : c.Fails r) (hwild : c.wild = true) :
    c.retry.Good r ∧ (c.Accepts r ↔ c.retry.Accepts r) := by
  refine ⟨⟨[], rfl, trivial, rfl⟩, ?_⟩
  rw [Accepts, Accepts, hwild]
  show _ ↔ Matches r (if c.wild then .star :: c.back else c.back) (c.base.drop 1)
  rw [hwild]
  exact matches_star_drop (h.not_matches hf)

theorem Good.compare (h : c.Good r) (hc : Compare r c c') :
    c'.Good r ∧ (c.Accepts r ↔ c'.Accepts r) := by
  cases hc with
  | take hrest hword ht => exact ⟨h.advance hrest hword ht, Iff.rfl⟩
  | miss hrest hword ht hno hwild =>
      exact h.retry (.inr ⟨_, _, _, _, hrest, hword, ht, hno⟩) hwild

theorem Good.reject (h : c.Good r) (hf : c.Fails r) (hwild : c.wild = false) :
    ¬ c.Accepts r := by
  rw [Accepts, hwild]
  exact h.not_matches hf

/-- The word ends in the middle of a segment. -/
theorem Good.reject_short (h : c.Good r) (hrest : c.rest = t :: p) (ht : t ≠ .star)
    (hnil : c.word = []) : ¬ c.Accepts r := by
  obtain ⟨s, hback, hs, hword⟩ := h
  have hlen : c.base.length ≤ s.length := by
    rw [← List.drop_eq_nil_iff, ← hword, hnil]
  rw [Accepts, hback, hrest]
  cases c.wild with
  | false => exact not_matches_of_length hs.notMem_star ht hlen
  | true => exact not_matches_star_of_length hs.notMem_star ht hlen

theorem Good.accept (h : c.Good r) (hm : Matches r c.rest c.word) : c.Accepts r := by
  obtain ⟨s, hback, hs, hword⟩ := h
  have hmatch : Matches r c.back c.base := by
    rw [hback, hs.matches_iff, ← hword]
    exact hm
  rw [Accepts]
  cases c.wild with
  | false => exact hmatch
  | true => exact matches_star_of hmatch

end Scan

/-! ## Where a search arrives -/

def Tok.isStar : Tok α → Bool
  | .star => true
  | _ => false

/-- The pattern up to its first star. -/
def segment (p : List (Tok α)) : List (Tok α) := p.takeWhile fun t => !t.isStar

/-- A search arrives at a star: the segment before the first one stands at the
beginning of the word, and every other one at the first place where it fits. -/
inductive Arrives (r : α → β → Prop) (p : List (Tok α)) (w : List β) :
    List (Tok α) → List β → Prop
  | first {s q : List (Tok α)} :
      p = s ++ .star :: q → Starts r s w → Arrives r p w q (w.drop s.length)
  | next {s q : List (Tok α)} {v : List β} {k : Nat} :
      Arrives r p w (s ++ .star :: q) v → (∀ j < k, ¬ Starts r s (v.drop j)) →
      Starts r s (v.drop k) → Arrives r p w q (v.drop (k + s.length))

/-- A search goes from star to star. -/
theorem Arrives.suffix (h : Arrives r p w q v) : .star :: q <:+ p := by
  induction h with
  | first hp _ => exact ⟨_, hp.symm⟩
  | next _ _ _ ih => exact (List.suffix_append _ _).trans ((List.suffix_cons _ _).trans ih)

/-- The segment behind a star need not be tried at a second place: it fits at
once, or the word ends before it does not. -/
def FirstTry (r : α → β → Prop) (q : List (Tok α)) (v : List β) : Prop :=
  Starts r ((segment q).take v.length) v ∧ (.star ∉ q → v.length ≤ q.length)

theorem segment_append (hs : .star ∉ s) : segment (s ++ p) = s ++ segment p := by
  rw [segment, List.takeWhile_append_of_pos]
  · rfl
  · intro t ht
    cases t with
    | star => exact absurd ht hs
    | any => rfl
    | lit c => rfl

theorem segment_star : segment (.star :: p) = ([] : List (Tok α)) := rfl

theorem segment_cons (ht : t ≠ .star) : segment (t :: p) = t :: segment p := by
  have h := @segment_append α p [t] (by simpa using Ne.symm ht)
  exact h

/-- The place the search goes back to comes from where it arrived, and no
place before it fits. A pattern with `hold` is tried at one place only. -/
structure Tracked (r : α → β → Prop) (hold : List (Tok α) → Prop) (p : List (Tok α))
    (w : List β) (c : Scan α β) : Prop where
  anchored : c.wild = false → c.back = p ∧ c.base = w
  arrived : c.wild = true → ∃ v k, Arrives r p w c.back v ∧ c.base = v.drop k ∧
    (.star ∈ c.back → ∀ j < k, ¬ Starts r (segment c.back) (v.drop j)) ∧ (hold c.back → k = 0)

namespace Tracked

variable {hold : List (Tok α) → Prop} {c c' : Scan α β}

theorem start (p : List (Tok α)) (w : List β) : Tracked r hold p w (Scan.start p w) :=
  ⟨fun _ => ⟨rfl, rfl⟩, nofun⟩

theorem skip (h : Tracked r hold p w c) (hgood : c.Good r) (hrest : c.rest = .star :: q) :
    Tracked r hold p w (c.skip q) := by
  obtain ⟨s, hback, hs, hword⟩ := hgood
  rw [hrest] at hback
  refine ⟨nofun, fun _ => ⟨c.word, 0, ?_, rfl, fun _ j hj => absurd hj (Nat.not_lt_zero j),
    fun _ => rfl⟩⟩
  cases hwild : c.wild with
  | false =>
      obtain ⟨hp, hw⟩ := h.anchored hwild
      rw [hword, hw]
      rw [hw] at hs
      exact .first (hp.symm.trans hback) hs
  | true =>
      obtain ⟨v, k, harr, hbase, hfirst, -⟩ := h.arrived hwild
      have hseg : segment c.back = s := by
        rw [hback, segment_append hs.notMem_star, segment_star, List.append_nil]
      have hmem : .star ∈ c.back := by
        rw [hback]
        exact List.mem_append_right _ (List.mem_cons_self ..)
      have hleft := hfirst hmem
      rw [hseg] at hleft
      rw [hback] at harr
      rw [hbase] at hs
      rw [hword, hbase, List.drop_drop]
      exact .next harr hleft hs

theorem skips : ∀ (k : Nat) {c : Scan α β}, Tracked r hold p w c → c.Good r →
    c.rest = List.replicate (k + 1) .star ++ q → Tracked r hold p w (c.skip q)
  | 0, _, h, hgood, hrest => h.skip hgood hrest
  | k + 1, c, h, hgood, hrest => by
      have hrest' : c.rest = .star :: (List.replicate (k + 1) .star ++ q) := by
        rw [hrest, List.replicate_succ, List.cons_append]
      exact (h.skip hgood hrest').skips k (hgood.skip hrest').1 rfl

theorem advance (h : Tracked r hold p w c) : Tracked r hold p w c.advance :=
  ⟨h.anchored, h.arrived⟩

theorem retry (h : Tracked r hold p w c) (hgood : c.Good r) (hf : c.Fails r)
    (hwild : c.wild = true) (hhold : ¬ hold c.back) : Tracked r hold p w c.retry := by
  refine ⟨fun hw => ?_, fun _ => ?_⟩
  · have hw' : c.wild = false := hw
    rw [hwild] at hw'
    cases hw'
  obtain ⟨v, k, harr, hbase, hfirst, -⟩ := h.arrived hwild
  refine ⟨v, k + 1, harr, ?_, fun hmem j hj => ?_, fun hh => absurd hh hhold⟩
  · show c.base.drop 1 = _
    rw [hbase, List.drop_drop]
  · rcases Nat.lt_succ_iff_lt_or_eq.mp hj with hlt | rfl
    · exact hfirst hmem j hlt
    · obtain ⟨s, hback, hs, hword⟩ := hgood
      rw [← hbase]
      rcases hf with ⟨hrest, -⟩ | ⟨t, p', d, u, hrest, hw, ht, hno⟩
      · have hmem' : Tok.star ∈ c.back := hmem
        rw [hback, hrest, List.append_nil] at hmem'
        exact absurd hmem' hs.notMem_star
      · show ¬ Starts r (segment c.back) c.base
        rw [hback, hrest, segment_append hs.notMem_star, segment_cons ht, starts_append, ← hword,
          hw]
        exact fun hst => hno hst.2.1

theorem compare (h : Tracked r hold p w c) (hgood : c.Good r) (hc : Scan.Compare r c c')
    (hhold : c.wild = true → c.Fails r → ¬ hold c.back) : Tracked r hold p w c' := by
  cases hc with
  | take hrest hword ht => exact h.advance
  | miss hrest hword ht hno hwild =>
      have hf : c.Fails r := .inr ⟨_, _, _, _, hrest, hword, ht, hno⟩
      exact h.retry hgood hf hwild (hhold hwild hf)

/-- Where the first try does not fail, the search does not go back. -/
theorem not_hold (h : Tracked r hold p w c) (hgood : c.Good r)
    (hsteady : ∀ q v, Arrives r p w q v → hold q → FirstTry r q v) (hwild : c.wild = true)
    (hf : c.Fails r) : ¬ hold c.back := by
  intro hh
  obtain ⟨v, k, harr, hbase, -, hzero⟩ := h.arrived hwild
  rw [hzero hh, List.drop_zero] at hbase
  rw [← hbase] at harr
  obtain ⟨hst, hlen⟩ := hsteady _ _ harr hh
  obtain ⟨s, hback, hs, hword⟩ := hgood
  rcases hf with ⟨hrest, hne⟩ | ⟨t, p', d, u, hrest, hw, ht, hno⟩
  · rw [hrest, List.append_nil] at hback
    refine hne ?_
    rw [hword, List.drop_eq_nil_iff, ← hback]
    exact hlen (by rw [hback]; exact hs.notMem_star)
  · have hlt : s.length < c.base.length := by
      by_contra hle
      rw [hword, List.drop_of_length_le (Nat.not_lt.mp hle)] at hw
      cases hw
    rw [hback, hrest, segment_append hs.notMem_star, segment_cons ht, List.take_append,
      List.take_of_length_le (Nat.le_of_lt hlt), starts_append, ← hword, hw] at hst
    obtain ⟨j, hj⟩ : ∃ j, c.base.length - s.length = j + 1 := ⟨_, (Nat.succ_pred_eq_of_pos
      (Nat.sub_pos_of_lt hlt)).symm⟩
    rw [hj, List.take_succ_cons] at hst
    exact hno hst.2.1

end Tracked

end TrIrcd.Lib
