import TrIrcd.Proofs.InetTexts

/-!
# The texts that are taken are addresses

An address in text is eight groups, or fewer with a gap, and a dotted quad may
stand for the last two (`Inet6Text`). Of the texts that have nothing but digits,
colons and dots in them, that do not end in a dot and in which no group is
longer than four digits, `inet_pton6` takes no other (`inetPton6_grammar`): the
pieces that it has taken are read off from the end, and the room that they take
says how many there are.
-/

namespace TrIrcd

open TrIrcd.Lib
open TrIrcd.V6Scan (joinGroups joinGroups_cons_cons)

/-! ## Addresses in text -/

/-- Groups, and maybe a dotted quad behind them. -/
structure IsTail (gs : List (List UInt8)) (quad : Option (List UInt8)) : Prop where
  groups : ∀ g ∈ gs, IsGroup g
  quad : ∀ q ∈ quad, ∃ addr, IsDottedQuad q addr

/-- The number of groups of the address that they stand for. -/
def tailSize (gs : List (List UInt8)) (quad : Option (List UInt8)) : Nat :=
  gs.length + if quad.isSome then 2 else 0

def tailText (gs : List (List UInt8)) (quad : Option (List UInt8)) : List UInt8 :=
  joinGroups (gs ++ quad.toList)

/-- An address with all its groups, or with a gap. -/
inductive Inet6Text
  | full (gs : List (List UInt8)) (quad : Option (List UInt8))
  | short (pre post : List (List UInt8)) (quad : Option (List UInt8))

namespace Inet6Text

def Wf : Inet6Text → Prop
  | full gs quad => IsTail gs quad ∧ tailSize gs quad = 8
  | short pre post quad =>
      (∀ g ∈ pre, IsGroup g) ∧ IsTail post quad ∧ pre.length + tailSize post quad ≤ 7

def text : Inet6Text → List UInt8
  | full gs quad => tailText gs quad
  | short pre post quad => joinGroups pre ++ 0x3a :: 0x3a :: tailText post quad

end Inet6Text

/-! ## Pieces -/

/-- Digits, colons and dots, with no dot at the end and no more than four digits
in a piece without a dot. -/
structure Inet6Plain (text : List UInt8) : Prop where
  chars : ∀ c ∈ text, isXDigit c = true ∨ c = 0x3a ∨ c = 0x2e
  last : text.getLast? ≠ some 0x2e
  pieces : ∀ piece ∈ text.splitOn 0x3a, 0x2e ∉ piece → piece.length ≤ 4

theorem isXDigit_ne {c : UInt8} (hc : isXDigit c = true) : c ≠ 0x3a ∧ c ≠ 0x2e := by
  constructor
  · rintro rfl
    exact absurd hc (by decide)
  · rintro rfl
    exact absurd hc (by decide)

variable {p g : List UInt8}

theorem xdigits_notMem (hg : ∀ c ∈ g, isXDigit c = true) : 0x3a ∉ g ∧ 0x2e ∉ g :=
  ⟨fun h => (isXDigit_ne (hg _ h)).1 rfl, fun h => (isXDigit_ne (hg _ h)).2 rfl⟩

/-- Behind a colon. -/
theorem Inet6Plain.tail (h : Inet6Plain (g ++ 0x3a :: p)) : Inet6Plain p where
  chars c hc := h.chars c (List.mem_append_right g (List.mem_cons_of_mem _ hc))
  last hlast := h.last (by
    cases p with
    | nil => cases hlast
    | cons c p =>
        rw [List.getLast?_append, List.getLast?_cons_cons, hlast]
        rfl)
  pieces piece hp := h.pieces piece (by
    rw [List.splitOn_append_cons_self, List.mem_append]
    exact .inr hp)

/-- The first piece of a text: it is the whole text, or a colon or a dot ends
it. -/
theorem Inet6Plain.cases (h : Inet6Plain p) :
    ∃ g, (∀ c ∈ g, isXDigit c = true) ∧
      (p = g ∧ g.length ≤ 4 ∨
        (∃ p', p = g ++ 0x3a :: p' ∧ g.length ≤ 4 ∧ Inet6Plain p') ∨
          ∃ p', p = g ++ 0x2e :: p' ∧ p' ≠ []) := by
  refine ⟨p.takeWhile isXDigit, fun c hc => List.mem_takeWhile_imp hc, ?_⟩
  have hg : ∀ c ∈ p.takeWhile isXDigit, isXDigit c = true := fun c hc => List.mem_takeWhile_imp hc
  have hsplit := List.takeWhile_append_dropWhile (p := isXDigit) (l := p)
  cases hrest : p.dropWhile isXDigit with
  | nil =>
      rw [hrest, List.append_nil] at hsplit
      refine .inl ⟨hsplit.symm, h.pieces _ ?_ (xdigits_notMem hg).2⟩
      rw [hsplit] at hg ⊢
      rw [List.splitOn_eq_singleton (xdigits_notMem hg).1]
      exact List.mem_singleton_self p
  | cons c p' =>
      rw [hrest] at hsplit
      have hc : isXDigit c = false := by
        have hhead := List.head?_dropWhile_not isXDigit p
        rw [hrest] at hhead
        simpa using hhead
      have hmem : c ∈ p := by
        rw [← hsplit]
        exact List.mem_append_right _ (List.mem_cons_self ..)
      generalize p.takeWhile isXDigit = g at hg hsplit ⊢
      subst hsplit
      rcases h.chars c hmem with hx | rfl | rfl
      · cases hc.symm.trans hx
      · refine .inr (.inl ⟨p', rfl, h.pieces g ?_ (xdigits_notMem hg).2, h.tail⟩)
        rw [List.splitOn_append_cons_self, List.splitOn_eq_singleton (xdigits_notMem hg).1]
        exact List.mem_append_left _ (List.mem_singleton_self g)
      · refine .inr (.inr ⟨p', rfl, ?_⟩)
        rintro rfl
        exact h.last (by rw [List.getLast?_append]; rfl)

/-! ## What the pieces are -/

/-- The groups in front of a gap, each with the colon behind it. -/
def ended (pre : List (List UInt8)) : List UInt8 := pre.flatMap fun g => g ++ [0x3a]

theorem joinGroups_singleton (g : List UInt8) : joinGroups [g] = g := by
  rw [joinGroups, List.intercalate_singleton]

theorem joinGroups_ended (pre : List (List UInt8)) (w : List UInt8) :
    joinGroups (pre ++ [w]) = ended pre ++ w := by
  induction pre with
  | nil => exact joinGroups_singleton w
  | cons g pre ih =>
      have hcons : joinGroups (g :: (pre ++ [w])) = g ++ 0x3a :: joinGroups (pre ++ [w]) := by
        cases pre with
        | nil => exact joinGroups_cons_cons g w []
        | cons g' pre => exact joinGroups_cons_cons g g' (pre ++ [w])
      rw [List.cons_append, hcons, ih, ended, ended, List.flatMap_cons]
      simp only [List.append_assoc, List.cons_append, List.nil_append]

theorem ended_eq {pre : List (List UInt8)} (hne : pre ≠ []) :
    ended pre = joinGroups pre ++ [0x3a] := by
  cases pre using List.reverseRecOn with
  | nil => exact absurd rfl hne
  | append_singleton pre g =>
      rw [joinGroups_ended, ended, ended, List.flatMap_append, List.flatMap_singleton,
        List.append_assoc]

theorem tailText_cons {gs : List (List UInt8)} {quad : Option (List UInt8)}
    (hne : tailText gs quad ≠ []) (g : List UInt8) :
    tailText (g :: gs) quad = g ++ 0x3a :: tailText gs quad := by
  rw [tailText, List.cons_append]
  cases hall : gs ++ quad.toList with
  | nil => 
      rw [tailText, hall] at hne
      exact absurd rfl hne
  | cons w ws => rw [joinGroups_cons_cons, tailText, hall]

/-- What the scan has taken of a text: groups and maybe a quad, or groups, a gap
and then these. -/
inductive Taken (out : List UInt8) : Option Nat → List UInt8 → List UInt8 × Option Nat → Prop
  | tail {gs : List (List UInt8)} {quad : Option (List UInt8)} {colonp : Option Nat}
      {out' : List UInt8} (htail : IsTail gs quad)
      (hlen : out'.length = out.length + 2 * tailSize gs quad) :
      Taken out colonp (tailText gs quad) (out', colonp)
  | gap {pre post : List (List UInt8)} {quad : Option (List UInt8)} {k : Nat} {out' : List UInt8}
      (hpre : ∀ g ∈ pre, IsGroup g) (htail : IsTail post quad)
      (hlen : out'.length = out.length + 2 * (pre.length + tailSize post quad)) :
      Taken out none (ended pre ++ 0x3a :: tailText post quad) (out', some k)

theorem groups_cons {gs : List (List UInt8)} (hg : IsGroup g) (hgs : ∀ g ∈ gs, IsGroup g) :
    ∀ g' ∈ g :: gs, IsGroup g' := List.forall_mem_cons.mpr ⟨hg, hgs⟩

theorem isTail_nil : IsTail [] none := ⟨fun _ h => absurd h List.not_mem_nil, fun _ h => nomatch h⟩

theorem groupBytes_append_length (out g : List UInt8) :
    (out ++ groupBytes g).length = out.length + 2 := List.length_append

section Taken

variable {out : List UInt8} {colonp : Option Nat} {r : List UInt8 × Option Nat}

theorem taken_last (hg : IsGroup g) : Taken out colonp g (out ++ groupBytes g, colonp) := by
  have htext : tailText [g] none = g := joinGroups_singleton g
  have htaken : Taken out colonp (tailText [g] none) (out ++ groupBytes g, colonp) :=
    .tail ⟨groups_cons hg isTail_nil.groups, isTail_nil.quad⟩ (groupBytes_append_length out g)
  rwa [htext] at htaken

theorem taken_quad {addr : InAddr} (h : inetPton4 p = some addr) :
    Taken out colonp p (out ++ addr.bytes, colonp) := by
  have htext : tailText [] (some p) = p := joinGroups_singleton p
  have htaken : Taken out colonp (tailText [] (some p)) (out ++ addr.bytes, colonp) :=
    .tail ⟨isTail_nil.groups, fun q hq => by
      cases hq
      exact ⟨addr, inetPton4_eq_iff.mp h⟩⟩ List.length_append
  rwa [htext] at htaken

theorem Taken.group (hg : IsGroup g) (hp : p ≠ [])
    (h : Taken (out ++ groupBytes g) colonp p r) : Taken out colonp (g ++ 0x3a :: p) r := by
  cases h with
  | tail htail hlen =>
      rw [← tailText_cons hp g]
      refine .tail ⟨groups_cons hg htail.groups, htail.quad⟩ ?_
      rw [hlen, groupBytes_append_length, tailSize, tailSize, List.length_cons]
      omega
  | @gap pre post quad k out' hpre htail hlen =>
      have htext : g ++ 0x3a :: (ended pre ++ 0x3a :: tailText post quad) =
          ended (g :: pre) ++ 0x3a :: tailText post quad := by
        rw [ended, ended, List.flatMap_cons]
        simp only [List.append_assoc, List.cons_append, List.nil_append]
      rw [htext]
      refine .gap (groups_cons hg hpre) htail ?_
      rw [hlen, groupBytes_append_length, List.length_cons]
      omega

theorem Taken.colon {k : Nat} (h : Taken out (some k) p r) : Taken out none (0x3a :: p) r := by
  cases h with
  | tail htail hlen =>
      show Taken out none (ended [] ++ 0x3a :: tailText _ _) _
      refine .gap isTail_nil.groups htail ?_
      rw [hlen, List.length_nil, Nat.zero_add]

/-- What the pieces of a text are, if it is taken. -/
theorem inetPieces_taken (n : Nat) : ∀ {p out : List UInt8} {colonp : Option Nat}, p.length ≤ n →
    Inet6Plain p → out.length ≤ 16 → inetPieces out colonp p = some r →
    Taken out colonp p r ∧ r.1.length ≤ 16 := by
  induction n with
  | zero =>
      intro p out colonp hn _ hle h
      cases List.length_eq_zero_iff.mp (Nat.le_zero.mp hn)
      cases h
      exact ⟨.tail isTail_nil rfl, hle⟩
  | succ n ih =>
      intro p out colonp hn hp hle h
      obtain ⟨g, hg, ⟨rfl, hlen⟩ | ⟨p', rfl, hlen, hp'⟩ | ⟨p', rfl, hne⟩⟩ := hp.cases
      · by_cases hnil : p = []
        · cases hnil
          cases h
          exact ⟨.tail isTail_nil rfl, hle⟩
        · have hgroup : IsGroup p := ⟨hnil, hlen, hg⟩
          rw [inetPieces_last hgroup] at h
          split at h
          · next hroom =>
              cases h
              exact ⟨taken_last hgroup, (groupBytes_append_length out p).trans_le hroom⟩
          · cases h
      · rw [List.length_append, List.length_cons] at hn
        by_cases hnil : g = []
        · cases hnil
          rw [List.nil_append] at h ⊢
          rw [inetPieces_gap] at h
          cases colonp with
          | some k => cases h
          | none =>
              obtain ⟨htaken, hr⟩ := ih (by omega) hp' hle h
              exact ⟨htaken.colon, hr⟩
        · have hgroup : IsGroup g := ⟨hnil, hlen, hg⟩
          by_cases hp : p' = []
          · cases hp
            rw [inetPieces_colon hgroup] at h
            cases h
          · rw [inetPieces_group hgroup hp] at h
            split at h
            · next hroom =>
                have hle' := (groupBytes_append_length out g).trans_le hroom
                obtain ⟨htaken, hr⟩ := ih (by omega) hp' hle' h
                exact ⟨htaken.group hgroup hp, hr⟩
            · cases h
      · obtain ⟨addr, hq, hroom, rfl⟩ := inetPieces_dot hg hne h
        have hsize : (out ++ addr.bytes).length = out.length + 4 := List.length_append
        exact ⟨taken_quad hq, hsize.trans_le hroom⟩

end Taken

/-! ## Whole texts -/

theorem inetPton6_grammar {text bytes : List UInt8} (hp : Inet6Plain text)
    (h : inetPton6 text = some bytes) : ∃ f : Inet6Text, f.Wf ∧ f.text = text := by
  have hnil : ([] : List UInt8).length ≤ 16 := Nat.zero_le 16
  by_cases hhead : text.head? = some 0x3a
  · cases text with
    | nil => cases hhead
    | cons c rest =>
        cases hhead
        rw [inetPton6_colon] at h
        split at h
        · next hrest =>
            cases rest with
            | nil => cases hrest
            | cons c' rest =>
                cases hrest
                obtain ⟨r, hr, hplace⟩ := Option.bind_eq_some_iff.mp h
                rw [inetPieces_gap] at hr
                have hrest : Inet6Plain rest := (hp.tail (g := [])).tail (g := [])
                obtain ⟨htaken, hle⟩ := inetPieces_taken _ (Nat.le_refl _) hrest hnil hr
                cases htaken with
                | @tail post quad colonp out' htail hlen =>
                    refine ⟨.short [] post quad, ⟨isTail_nil.groups, htail, ?_⟩, rfl⟩
                    have hne := place_some hplace
                    simp only [List.length_nil] at hlen hle ⊢
                    omega
        · cases h
  · rw [inetPton6_of_head hhead] at h
    obtain ⟨r, hr, hplace⟩ := Option.bind_eq_some_iff.mp h
    obtain ⟨htaken, hle⟩ := inetPieces_taken _ (Nat.le_refl _) hp hnil hr
    cases htaken with
    | @tail gs quad colonp out' htail hlen =>
        refine ⟨.full gs quad, ⟨htail, ?_⟩, rfl⟩
        rw [place_full] at hplace
        split at hplace
        · next hfull =>
            simp only [List.length_nil] at hlen
            omega
        · cases hplace
    | @gap pre post quad k out' hpre htail hlen =>
        refine ⟨.short pre post quad, ⟨hpre, htail, ?_⟩, ?_⟩
        · have hne := place_some hplace
          simp only [List.length_nil] at hlen hle
          omega
        · have hne : pre ≠ [] := by
            rintro rfl
            exact hhead rfl
          rw [Inet6Text.text, ended_eq hne, List.append_assoc]
          rfl

end TrIrcd
