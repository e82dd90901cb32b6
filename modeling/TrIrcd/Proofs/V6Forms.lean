import Mathlib.Data.List.Induction
import Mathlib.Data.Nat.Bitwise
import TrIrcd.Proofs.Hostmask
import TrIrcd.Src.Hostmask

/-!
# Netmasks of IPv6, and what the scan makes of them

A netmask is an address, with all its groups or with a gap, and maybe a number
of bits, or some groups and a star (`V6Form`). The scan takes its groups in
order and shifts each to its place (`scan_groups`), but it reads a letter as one
of 48 to 53: the fourth bit of its nibble is not set, whatever the letter and
whatever its neighbours (`groupRead_eq_iff`).
-/

namespace TrIrcd

open TrIrcd.Lib

/-! ## Groups -/

def hexDigit (c : UInt8) : Nat :=
  if isDigit c then c.toNat - 0x30
  else if c ≤ 0x46 then c.toNat - 0x41 + 10
  else c.toNat - 0x61 + 10

/-- The value of a group. -/
def groupValue (g : List UInt8) : Nat := g.foldl (fun v c => v <<< 4 ||| hexDigit c) 0

/-- What the scan reads of a group. -/
def groupRead (g : List UInt8) : Nat := g.foldl (fun v c => v <<< 4 ||| digitParse c) 0

structure IsGroup (g : List UInt8) : Prop where
  ne_nil : g ≠ []
  length : g.length ≤ 4
  digits : ∀ c ∈ g, isXDigit c = true

theorem isXDigit_cases {c : UInt8} (h : isXDigit c = true) :
    isDigit c = true ∧ digitParse c = hexDigit c ∧ hexDigit c < 10 ∨
      isDigit c = false ∧ digitParse c + 10 = hexDigit c + 48 ∧
        10 ≤ hexDigit c ∧ hexDigit c ≤ 15 := by
  have hlt := UInt8.toNat_lt c
  simp only [isXDigit, isDigit, digitParse, hexDigit, Bool.or_eq_true, Bool.and_eq_true,
    decide_eq_true_eq, Bool.and_eq_false_iff, decide_eq_false_iff_not,
    UInt8.le_iff_toNat_le, UInt8.toNat_ofNat] at h ⊢
  split_ifs <;> omega

theorem hexDigit_lt {c : UInt8} (h : isXDigit c = true) : hexDigit c < 16 := by
  rcases isXDigit_cases h with ⟨_, _, hlt⟩ | ⟨_, _, _, hle⟩
  · omega
  · omega

/-- The fourth bit that is read of a digit is right just if it is no letter. -/
theorem digitParse_testBit_iff {c : UInt8} (h : isXDigit c = true) :
    (digitParse c).testBit 3 = (hexDigit c).testBit 3 ↔ isDigit c = true := by
  rcases isXDigit_cases h with ⟨hd, heq, _⟩ | ⟨hd, heq, hlo, hhi⟩
  · rw [heq, hd]
    exact iff_of_true rfl rfl
  · have hread : digitParse c / 2 ^ 3 = 6 := by omega
    have hvalue : hexDigit c / 2 ^ 3 = 1 := by omega
    rw [Nat.testBit_eq_decide_div_mod_eq, Nat.testBit_eq_decide_div_mod_eq, hread, hvalue, hd]
    decide

theorem shiftOr_testBit_low {v c i : Nat} (hi : i < 4) :
    (v <<< 4 ||| c).testBit i = c.testBit i := by
  rw [Nat.testBit_or, Nat.testBit_shiftLeft, decide_eq_false (Nat.not_le.mpr hi), Bool.false_and,
    Bool.false_or]

theorem shiftOr_testBit_high {v c i : Nat} (hc : c < 16) :
    (v <<< 4 ||| c).testBit (i + 4) = v.testBit i := by
  have hpow : 2 ^ 4 ≤ 2 ^ (i + 4) := Nat.pow_le_pow_right (by decide) (Nat.le_add_left 4 i)
  have hlow : c.testBit (i + 4) = false := Nat.testBit_lt_two_pow (Nat.lt_of_lt_of_le hc hpow)
  rw [Nat.testBit_or, Nat.testBit_shiftLeft, hlow, Bool.or_false,
    decide_eq_true (Nat.le_add_left 4 i), Bool.true_and, Nat.add_sub_cancel]

theorem groupRead_append (g : List UInt8) (c : UInt8) :
    groupRead (g ++ [c]) = groupRead g <<< 4 ||| digitParse c := List.foldl_concat ..

theorem groupValue_append (g : List UInt8) (c : UInt8) :
    groupValue (g ++ [c]) = groupValue g <<< 4 ||| hexDigit c := List.foldl_concat ..

theorem groupRead_of_digits {g : List UInt8} (hg : ∀ c ∈ g, isDigit c = true) :
    groupRead g = groupValue g := by
  induction g using List.reverseRecOn with
  | nil => rfl
  | append_singleton g c ih =>
      have hc : isDigit c = true := hg c (List.mem_append_right g (List.mem_singleton_self c))
      have hparse : digitParse c = hexDigit c := by
        rcases isXDigit_cases (by rw [isXDigit, hc]; rfl) with ⟨_, heq, _⟩ | ⟨hd, _⟩
        · exact heq
        · cases hd.symm.trans hc
      rw [groupRead_append, groupValue_append, hparse,
        ih fun d hd => hg d (List.mem_append_left [c] hd)]

/-- A group is read as what it is just if all its digits are decimal. -/
theorem groupRead_eq_iff {g : List UInt8} (hg : ∀ c ∈ g, isXDigit c = true) :
    (∀ i < 4 * g.length, (groupRead g).testBit i = (groupValue g).testBit i) ↔
      ∀ c ∈ g, isDigit c = true := by
  constructor
  · intro h
    induction g using List.reverseRecOn with
    | nil => exact fun c hc => absurd hc List.not_mem_nil
    | append_singleton g c ih =>
        have hlen : (g ++ [c]).length = g.length + 1 := List.length_append
        have hx : isXDigit c = true := hg c (List.mem_append_right g (List.mem_singleton_self c))
        rw [groupRead_append, groupValue_append, hlen] at h
        have hfour := h 3 (by omega)
        rw [shiftOr_testBit_low (by decide), shiftOr_testBit_low (by decide),
          digitParse_testBit_iff hx] at hfour
        have hparse : digitParse c = hexDigit c ∧ hexDigit c < 10 := by
          rcases isXDigit_cases hx with ⟨_, heq, hlt⟩ | ⟨hd, _⟩
          · exact ⟨heq, hlt⟩
          · cases hd.symm.trans hfour
        have hrest := ih (fun d hd => hg d (List.mem_append_left [c] hd)) fun i hi => by
          have hi4 := h (i + 4) (by omega)
          rwa [shiftOr_testBit_high (by omega), shiftOr_testBit_high (by omega)] at hi4
        intro d hd
        rcases List.mem_append.mp hd with hd | hd
        · exact hrest d hd
        · rw [List.mem_singleton.mp hd]
          exact hfour
  · intro h i _
    rw [groupRead_of_digits h]

/-! ## The scan -/

namespace V6Scan

variable {done : List Nat} {v nyble : Nat} {finsert : Option Nat} {colon : Bool}
  {g p : List UInt8} {gs : List (List UInt8)}

theorem scan_digit {c : UInt8} (hc : isXDigit c = true) :
    scan ⟨done, v <<< (4 * (nyble + 1)), nyble + 1, finsert⟩ colon (c :: p) =
      scan ⟨done, (v <<< 4 ||| digitParse c) <<< (4 * nyble), nyble, finsert⟩ false p := by
  have hshift : v <<< (4 * (nyble + 1)) ||| digitParse c <<< (4 * nyble) =
      (v <<< 4 ||| digitParse c) <<< (4 * nyble) := by
    rw [Nat.shiftLeft_or_distrib, ← Nat.shiftLeft_add, Nat.mul_succ, Nat.add_comm (4 * nyble)]
  rw [scan, if_pos hc, if_neg (Nat.succ_ne_zero nyble)]
  simp only [Nat.add_sub_cancel, hshift]

theorem scan_digits (hg : ∀ c ∈ g, isXDigit c = true) :
    ∀ {v nyble : Nat} {colon : Bool}, g ≠ [] → g.length ≤ nyble →
      scan ⟨done, v <<< (4 * nyble), nyble, finsert⟩ colon (g ++ p) =
        scan ⟨done, g.foldl (fun v c => v <<< 4 ||| digitParse c) v <<< (4 * (nyble - g.length)),
          nyble - g.length, finsert⟩ false p := by
  induction g with
  | nil => exact fun hne => absurd rfl hne
  | cons c g ih =>
      intro v nyble colon _ hlen
      obtain ⟨n, rfl⟩ : ∃ n, nyble = n + 1 := Nat.exists_eq_add_of_le' (Nat.one_le_of_lt hlen)
      rw [List.cons_append, scan_digit (hg c (List.mem_cons_self ..))]
      cases g with
      | nil => rfl
      | cons d g =>
          have hleft : n + 1 - (c :: d :: g).length = n - (d :: g).length :=
            Nat.add_sub_add_right ..
          rw [ih (fun d hd => hg d (List.mem_cons_of_mem c hd)) (List.cons_ne_nil d g)
            (Nat.le_of_succ_le_succ hlen), hleft]
          rfl

/-- What is in the variables behind a group. -/
def inGroup (done : List Nat) (g : List UInt8) (finsert : Option Nat) : V6Scan :=
  ⟨done, groupRead g <<< (4 * (4 - g.length)), 4 - g.length, finsert⟩

theorem next_inGroup : (inGroup done g finsert).next.done = done ++ [groupRead g] := by
  rw [next, inGroup, Nat.shiftLeft_shiftRight]

theorem scan_group (hg : IsGroup g) :
    scan ⟨done, 0, 4, finsert⟩ colon (g ++ p) = scan (inGroup done g finsert) false p := by
  have h := @scan_digits done finsert g p hg.digits 0 4 colon hg.ne_nil hg.length
  rwa [Nat.zero_shiftLeft] at h

theorem scan_colon {st : V6Scan} (hlen : st.done.length < 7) :
    st.scan false (0x3a :: p) = scan { st.next with nyble := 4 } true p := by
  have hnext : st.next.done.length = st.done.length + 1 := List.length_append
  rw [scan, if_neg (by decide), if_pos rfl, if_neg Bool.false_ne_true]
  simp only [hnext]
  exact if_neg (by omega)

theorem scan_colon_colon {st : V6Scan} (hgap : st.finsert = none) :
    st.scan true (0x3a :: p) = scan { st with finsert := some st.done.length } true p := by
  rw [scan, if_neg (by decide), if_pos rfl, if_pos rfl, hgap]
  rfl

theorem scan_group_colon (hlen : done.length < 7) :
    scan (inGroup done g finsert) false (0x3a :: p) =
      scan ⟨done ++ [groupRead g], 0, 4, finsert⟩ true p := by
  rw [scan_colon hlen]
  show scan ⟨(inGroup done g finsert).next.done, 0, 4, finsert⟩ true p = _
  rw [next_inGroup]

/-- Groups with a colon between two of them. -/
def joinGroups (gs : List (List UInt8)) : List UInt8 := [0x3a].intercalate gs

theorem joinGroups_cons_cons (g g' : List UInt8) (gs : List (List UInt8)) :
    joinGroups (g :: g' :: gs) = g ++ 0x3a :: joinGroups (g' :: gs) := by
  rw [joinGroups, List.intercalate_cons_cons]
  simp [joinGroups]

theorem scan_groups (hg : IsGroup g) :
    ∀ {gs : List (List UInt8)} {done : List Nat} {colon : Bool}, (∀ g ∈ gs, IsGroup g) →
      done.length + gs.length ≤ 7 →
      scan ⟨done, 0, 4, finsert⟩ colon (joinGroups (gs ++ [g]) ++ p) =
        scan (inGroup (done ++ gs.map groupRead) g finsert) false p := by
  intro gs
  induction gs with
  | nil =>
      intro done colon _ _
      rw [List.nil_append, joinGroups, List.intercalate_singleton, scan_group hg, List.map_nil,
        List.append_nil]
  | cons g' gs ih =>
      intro done colon hgs hlen
      rw [List.length_cons] at hlen
      have hjoin : joinGroups (g' :: gs ++ [g]) = g' ++ 0x3a :: joinGroups (gs ++ [g]) := by
        cases gs with
        | nil => exact joinGroups_cons_cons g' g []
        | cons g'' gs => exact joinGroups_cons_cons g' g'' (gs ++ [g])
      rw [hjoin, List.append_assoc, List.cons_append, scan_group (hgs g' (List.mem_cons_self ..)),
        scan_group_colon (by omega), ih (fun g hg => hgs g (List.mem_cons_of_mem g' hg)) (by
          rw [List.length_append, List.length_singleton]
          omega), List.map_cons, List.append_assoc]
      rfl

/-- The groups on one side of a gap, as they are read: if there are none, there
is a 0. -/
def readSide (gs : List (List UInt8)) : List Nat := if gs = [] then [0] else gs.map groupRead

theorem readSide_length (gs : List (List UInt8)) : (readSide gs).length = max 1 gs.length := by
  rw [readSide]
  cases gs with
  | nil => rfl
  | cons g gs =>
      rw [if_neg (List.cons_ne_nil g gs), List.length_map, List.length_cons]
      omega

theorem scan_gap {pre : List (List UInt8)} (hpre : ∀ g ∈ pre, IsGroup g) (hlen : pre.length ≤ 7) :
    init.scan false (joinGroups pre ++ 0x3a :: 0x3a :: p) =
      scan ⟨readSide pre, 0, 4, some (readSide pre).length⟩ true p := by
  cases pre using List.reverseRecOn with
  | nil =>
      rw [readSide, if_pos rfl, joinGroups, List.intercalate_nil, List.nil_append,
        scan_colon (by decide), scan_colon_colon rfl]
      rfl
  | append_singleton pre g =>
      have hg : IsGroup g := hpre g (List.mem_append_right pre (List.mem_singleton_self g))
      have hread : readSide (pre ++ [g]) = pre.map groupRead ++ [groupRead g] := by
        rw [readSide, if_neg (List.append_ne_nil_of_right_ne_nil pre (List.cons_ne_nil g [])),
          List.map_append]
        rfl
      rw [List.length_append, List.length_singleton] at hlen
      rw [init, scan_groups hg (fun g hg => hpre g (List.mem_append_left _ hg))
        (by rw [List.length_nil]; omega), List.nil_append, scan_group_colon (by
          rw [List.length_map]
          omega), scan_colon_colon rfl, hread]

/-- The groups behind a gap. -/
theorem scan_behind {post : List (List UInt8)} (hpost : ∀ g ∈ post, IsGroup g) (hne : post ≠ [])
    (hlen : done.length + post.length ≤ 8) :
    ∃ st : V6Scan, scan ⟨done, 0, 4, finsert⟩ colon (joinGroups post ++ p) = st.scan false p ∧
      st.next.done = done ++ post.map groupRead ∧ st.finsert = finsert := by
  cases post using List.reverseRecOn with
  | nil => exact absurd rfl hne
  | append_singleton post g =>
      have hg : IsGroup g := hpost g (List.mem_append_right post (List.mem_singleton_self g))
      rw [List.length_append, List.length_singleton] at hlen
      refine ⟨_, scan_groups hg (fun g hg => hpost g (List.mem_append_left _ hg)) (by omega),
        ?_, rfl⟩
      rw [next_inGroup, List.map_append, List.append_assoc]
      rfl

end V6Scan

/-! ## Netmasks -/

/-- The number of bits behind an address, if there is one. -/
def slashText : Option (List UInt8) → List UInt8
  | none => []
  | some ds => 0x2f :: ds

/-- Decimal digits for a number from 1 to 128. -/
def IsBits (ds : List UInt8) : Prop :=
  ds ≠ [] ∧ (∀ c ∈ ds, isDigit c = true) ∧ 1 ≤ decimal ds ∧ decimal ds ≤ 128

/-- An address with all its groups, or with a gap, and maybe a number of bits; or
some groups and a star. -/
inductive V6Form
  | full (gs : List (List UInt8)) (slash : Option (List UInt8))
  | short (pre post : List (List UInt8)) (slash : Option (List UInt8))
  | star (gs : List (List UInt8))

namespace V6Form

open V6Scan (joinGroups)

def Wf : V6Form → Prop
  | full gs slash => (∀ g ∈ gs, IsGroup g) ∧ gs.length = 8 ∧ ∀ ds ∈ slash, IsBits ds
  | short pre post slash => (∀ g ∈ pre, IsGroup g) ∧ (∀ g ∈ post, IsGroup g) ∧
      pre.length + post.length ≤ 7 ∧ ∀ ds ∈ slash, IsBits ds
  | star gs => (∀ g ∈ gs, IsGroup g) ∧ 1 ≤ gs.length ∧ gs.length ≤ 7

def text : V6Form → List UInt8
  | full gs slash => joinGroups gs ++ slashText slash
  | short pre post slash =>
      joinGroups pre ++ 0x3a :: 0x3a :: (joinGroups post ++ slashText slash)
  | star gs => joinGroups gs ++ [0x3a, 0x2a]

def bits : V6Form → Nat
  | full _ slash => (slash.map decimal).getD 128
  | short _ _ slash => (slash.map decimal).getD 128
  | star gs => 16 * gs.length

theorem bits_le {f : V6Form} (hf : f.Wf) : f.bits ≤ 128 := by
  match f, hf with
  | full gs none, _ => exact Nat.le_refl 128
  | full gs (some ds), ⟨_, _, hds⟩ => exact (hds ds rfl).2.2.2
  | short pre post none, _ => exact Nat.le_refl 128
  | short pre post (some ds), ⟨_, _, _, hds⟩ => exact (hds ds rfl).2.2.2
  | star gs, ⟨_, _, hlen⟩ => exact Nat.mul_le_mul_left 16 (Nat.le_succ_of_le hlen)

/-- The eight groups of the address. -/
def value : V6Form → List Nat
  | full gs _ => gs.map groupValue
  | short pre post _ =>
      pre.map groupValue ++ List.replicate (8 - pre.length - post.length) 0 ++
        post.map groupValue
  | star gs => gs.map groupValue ++ List.replicate (8 - gs.length) 0

end V6Form

end TrIrcd
