import TrIrcd.Lib.Lines
import TrIrcd.Lib.Run
import TrIrcd.Src.HttpForms

/-!
# The port ranges of a listener form

`Scans` is the loop without its fuel: it comes to an end, with these entries.
It has one equation for each kind of character, and both results are read off
them. Safety is a property of the text alone (`portsSafe`): no number of five
digits or more, nothing but digits, spaces, commas and dots with a character
behind each dot, and no second entry of a `..` where there is room for one
only, all of this until 256 entries are stored, when the loop ends.

For a list of ports and ranges the entries are known (`scans_items`), and the
second loop, which looks at one entry more than `port_count` says, finds there
the last number, which was not counted. With more than 256 entries it looks
behind the array. A single port is not counted at all, so without an address
it is lost (`commitListener_exact_iff`).
-/

namespace TrIrcd

open TrIrcd.Lib

/-! ## The scan -/

/-- What the loop comes to when it ends. -/
def finishPorts (t : List UInt8) (ports : List Int) : Except PortFault Ports :=
  (storePort t ports).map fun entries => { count := ports.length, entry := (entries.getD · 0) }

/-- From here the loop comes to an end. -/
def Scans (range t : List UInt8) (ports : List Int) (p : Ports) : Prop :=
  ∃ fuel, portLoop fuel range t ports = .ok p

/-- What separates ports. -/
def isPortSep (c : UInt8) : Bool := c = 0x20 || c = 0x2c

theorem isPortSep_not_digit {c : UInt8} (h : isPortSep c = true) : isDigit c = false := by
  rw [isPortSep, Bool.or_eq_true, decide_eq_true_eq, decide_eq_true_eq] at h
  rcases h with rfl | rfl
  · decide
  · decide

section Scan

variable {range t : List UInt8} {ports : List Int} {p : Ports} {c : UInt8}

/-- A loop that ends has one turn at least. -/
theorem scans_iff : Scans range t ports p ↔ ∃ fuel, portLoop (fuel + 1) range t ports = .ok p := by
  constructor
  · rintro ⟨fuel, h⟩
    cases fuel with
    | zero => cases h
    | succ fuel => exact ⟨fuel, h⟩
  · rintro ⟨fuel, h⟩
    exact ⟨fuel + 1, h⟩

theorem scans_nil : Scans [] t ports p ↔ finishPorts t ports = .ok p := by
  rw [scans_iff]
  exact ⟨fun ⟨_, h⟩ => h, fun h => ⟨0, h⟩⟩

/-- With all entries stored the loop ends, wherever it is. -/
theorem scans_full (hfull : maxPorts ≤ ports.length) :
    Scans range t ports p ↔ finishPorts t ports = .ok p := by
  cases range with
  | nil => exact scans_nil
  | cons c range =>
      rw [scans_iff]
      simp only [portLoop, if_pos hfull]
      exact ⟨fun ⟨_, h⟩ => h, fun h => ⟨0, h⟩⟩

theorem scans_digit (hroom : ports.length < maxPorts) (hc : isDigit c = true) :
    Scans (c :: range) t ports p ↔ t.length < 5 ∧ Scans range (t ++ [c]) ports p := by
  rw [scans_iff]
  simp only [portLoop, if_neg (Nat.not_le_of_lt hroom), hc, if_true]
  by_cases ht : t.length < 5
  · simp only [ht, true_and]
    rfl
  · simp [ht]

theorem storePort_ok (hroom : ports.length < maxPorts) {stored : List Int} :
    storePort t ports = .ok stored ↔
      t.length < 5 ∧ stored = if t = [] then ports else ports ++ [atoi t] := by
  rw [storePort]
  by_cases ht : t = []
  · subst ht
    simp [eq_comm]
  · rw [if_neg ht, if_neg ht, portNumber]
    by_cases hlen : t.length < 5
    · rw [if_pos hlen]
      simp only [Except.bind, if_pos hroom, Except.ok.injEq, hlen, true_and]
      exact eq_comm
    · simp [hlen, Except.bind]

/-- What a character that is no digit does with the number in front of it. -/
def storedPorts (t : List UInt8) (ports : List Int) : List Int :=
  if t = [] then ports else ports ++ [atoi t]

/-- A character that is no digit: the number is stored, and then there are three
kinds. -/
theorem scans_other (hroom : ports.length < maxPorts) (hc : isDigit c = false) :
    Scans (c :: range) t ports p ↔ t.length < 5 ∧
      if isPortSep c then Scans range [] (storedPorts t ports) p
      else if c = 0x2e then (storedPorts t ports).length < maxPorts ∧
        ∃ d rest, range = d :: rest ∧ Scans rest [] (storedPorts t ports ++ [-1]) p
      else Scans (c :: range) [] (storedPorts t ports) p := by
  rw [scans_iff]
  simp only [portLoop, if_neg (Nat.not_le_of_lt hroom), hc, Bool.false_eq_true, if_false,
    bind_ok_iff, storePort_ok hroom]
  rw [storedPorts]
  generalize (if t = [] then ports else ports ++ [atoi t]) = stored
  have hpull : ∀ {P : Nat → List Int → Prop},
      (∃ fuel ps, (t.length < 5 ∧ ps = stored) ∧ P fuel ps) ↔ t.length < 5 ∧ ∃ fuel, P fuel stored := by
    intro P
    constructor
    · rintro ⟨fuel, ps, ⟨ht, rfl⟩, h⟩
      exact ⟨ht, fuel, h⟩
    · rintro ⟨ht, fuel, h⟩
      exact ⟨fuel, stored, ⟨ht, rfl⟩, h⟩
  rw [hpull, isPortSep]
  refine and_congr_right fun _ => ?_
  split
  · exact Iff.rfl
  · split
    · cases range with
      | nil => simp
      | cons d rest =>
          by_cases hlt : stored.length < maxPorts
          · simp only [hlt, true_and]
            constructor
            · exact fun h => ⟨d, rest, rfl, h⟩
            · rintro ⟨d', rest', heq, h⟩
              cases heq
              exact h
          · simp [hlt]
    · exact Iff.rfl

/-- A character that is none of these is never passed. -/
theorem not_scans (hroom : ports.length < maxPorts) (hdigit : isDigit c = false)
    (hsep : isPortSep c = false) (hdot : c ≠ 0x2e) : ¬Scans (c :: range) [] ports p := by
  rintro ⟨fuel, h⟩
  induction fuel with
  | zero => cases h
  | succ fuel ih =>
      rw [isPortSep] at hsep
      simp only [portLoop, if_neg (Nat.not_le_of_lt hroom), hdigit, storePort, hsep,
        if_neg hdot, Bool.false_eq_true, if_false] at h
      exact ih h

theorem finishPorts_ok :
    (∃ p, finishPorts t ports = .ok p) ↔
      t = [] ∨ t.length < 5 ∧ ports.length < maxPorts := by
  rw [finishPorts, storePort]
  by_cases ht : t = []
  · simp [ht, Except.map]
  · rw [if_neg ht, portNumber, or_iff_right ht]
    by_cases hlen : t.length < 5
    · by_cases hroom : ports.length < maxPorts
      · simp [hlen, hroom, Except.bind, Except.map]
      · simp [hlen, hroom, Except.bind, Except.map]
    · simp [hlen, Except.bind, Except.map]

theorem storedPorts_length :
    (storedPorts t ports).length = if t.length = 0 then ports.length else ports.length + 1 := by
  rw [storedPorts]
  by_cases ht : t = []
  · rw [if_pos ht, if_pos (List.length_eq_zero_iff.mpr ht)]
  · rw [if_neg ht, if_neg (mt List.length_eq_zero_iff.mp ht), List.length_append,
      List.length_singleton]

end Scan

/-- What the loop gets through: `s` digits stand in `t`, and `n` entries are
stored. -/
def portsSafe : List UInt8 → Nat → Nat → Bool
  | [], s, n => s = 0 || (s < 5 && n < maxPorts)
  | c :: range, s, n =>
      if maxPorts ≤ n then s = 0
      else if isDigit c then s < 5 && portsSafe range (s + 1) n
      else
        let n := if s = 0 then n else n + 1
        s < 5 &&
          if isPortSep c then portsSafe range 0 n
          else if c = 0x2e then
            match range with
            | [] => false
            | _ :: range => n < maxPorts && portsSafe range 0 (n + 1)
          else maxPorts ≤ n

theorem scans_safe (range : List UInt8) :
    ∀ (t : List UInt8) (ports : List Int),
      (∃ p, Scans range t ports p) ↔ portsSafe range t.length ports.length = true := by
  induction hn : range.length using Nat.strongRecOn generalizing range with
  | ind n ih =>
      intro t ports
      cases range with
      | nil =>
          simp only [scans_nil]
          rw [finishPorts_ok, portsSafe]
          simp
      | cons c range =>
          by_cases hfull : maxPorts ≤ ports.length
          · simp only [scans_full hfull]
            rw [finishPorts_ok, portsSafe, if_pos hfull, decide_eq_true_iff,
              List.length_eq_zero_iff]
            exact or_iff_left fun h => absurd h.2 (Nat.not_lt_of_le hfull)
          have hroom := Nat.lt_of_not_le hfull
          have hlen : range.length < n := by
            rw [← hn]
            exact Nat.lt_succ_self _
          rw [portsSafe.eq_def]
          dsimp only
          rw [if_neg hfull]
          cases hdigit : isDigit c with
          | true =>
              simp only [scans_digit hroom hdigit, exists_and_left]
              rw [ih range.length hlen range rfl, List.length_append, List.length_singleton,
                if_pos trivial, Bool.and_eq_true, decide_eq_true_iff]
          | false =>
              simp only [scans_other hroom hdigit, exists_and_left]
              rw [if_neg Bool.false_ne_true, Bool.and_eq_true, decide_eq_true_iff,
                ← storedPorts_length]
              refine and_congr_right fun _ => ?_
              cases hsep : isPortSep c with
              | true =>
                  simp only [if_true]
                  exact ih range.length hlen range rfl [] _
              | false =>
                  simp only [Bool.false_eq_true, if_false]
                  by_cases hdot : c = 0x2e
                  · simp only [if_pos hdot]
                    cases range with
                    | nil => simp
                    | cons d rest =>
                        have hrest : rest.length < n :=
                          Nat.lt_trans (Nat.lt_succ_self _) hlen
                        have hstep := ih rest.length hrest rest rfl []
                          (storedPorts t ports ++ [-1])
                        rw [List.length_append, List.length_singleton, List.length_nil] at hstep
                        rw [Bool.and_eq_true, decide_eq_true_iff, ← hstep]
                        constructor
                        · rintro ⟨p, hlt, d', rest', heq, h⟩
                          cases heq
                          exact ⟨hlt, p, h⟩
                        · rintro ⟨hlt, p, h⟩
                          exact ⟨p, hlt, d, rest, rfl, h⟩
                  · simp only [if_neg hdot]
                    by_cases hfull' : maxPorts ≤ (storedPorts t ports).length
                    · simp only [scans_full hfull']
                      exact iff_of_true ⟨_, rfl⟩ (decide_eq_true hfull')
                    · refine iff_of_false ?_ (by simpa using hfull')
                      rintro ⟨p, hp⟩
                      exact not_scans (Nat.lt_of_not_le hfull') hdigit hsep hdot hp

/-! ## A list of ports and ranges -/

/-- The number that digits stand for. -/
def digitsValue (d : List UInt8) : Nat := d.foldl (fun n c => n * 10 + (c.toNat - 0x30)) 0

/-- A port number, written out. -/
def IsPort (d : List UInt8) : Prop :=
  d ≠ [] ∧ (∀ c ∈ d, isDigit c = true) ∧ digitsValue d < 65536

/-- A port, or the first and the last port of a range. -/
structure PortItem where
  first : List UInt8
  last : Option (List UInt8)

namespace PortItem

def text (x : PortItem) : List UInt8 := x.first ++ x.last.elim [] fun l => 0x2e :: 0x2e :: l

structure WellFormed (x : PortItem) : Prop where
  first : IsPort x.first
  last : ∀ l ∈ x.last, IsPort l ∧ digitsValue x.first ≤ digitsValue l

/-- The ports it stands for. -/
def Lists (x : PortItem) (p : Int) : Prop :=
  x.last.elim (p = digitsValue x.first) fun l => digitsValue x.first ≤ p ∧ p ≤ digitsValue l

instance : ∀ (x : PortItem) (p : Int), Decidable (x.Lists p)
  | ⟨first, none⟩, p => inferInstanceAs (Decidable (p = digitsValue first))
  | ⟨first, some l⟩, p =>
      inferInstanceAs (Decidable (digitsValue first ≤ p ∧ p ≤ digitsValue l))

/-- No number has five digits. -/
def Short (x : PortItem) : Prop := x.first.length < 5 ∧ ∀ l ∈ x.last, l.length < 5

/-- Its entries in `listener_ports`. -/
def entries (x : PortItem) : List Int :=
  (digitsValue x.first : Int) :: x.last.elim [] fun l => [-1, (digitsValue l : Int)]

end PortItem

/-- An item, and others with what separates them in front. -/
def portText (x : PortItem) : List (List UInt8 × PortItem) → List UInt8
  | [] => x.text
  | (sep, y) :: rest => x.text ++ (sep ++ portText y rest)

/-- Commas and spaces, at least one. -/
def IsSeparator (sep : List UInt8) : Prop := sep ≠ [] ∧ ∀ c ∈ sep, isPortSep c = true

/-- All items of a text. -/
def portItems (x : PortItem) (rest : List (List UInt8 × PortItem)) : List PortItem :=
  x :: rest.map Prod.snd

/-- A text of ports and ranges. -/
def PortList (x : PortItem) (rest : List (List UInt8 × PortItem)) : Prop :=
  (∀ y ∈ portItems x rest, y.WellFormed) ∧ ∀ q ∈ rest, IsSeparator q.1

section Items

variable {range d sep : List UInt8} {ports : List Int} {p : Ports} {x : PortItem}
  {rest : List (List UInt8 × PortItem)}

theorem isDigit_ne {c : UInt8} (h : isDigit c = true) : isSpace c = false ∧ c ≠ 0x2d ∧ c ≠ 0x2b := by
  have hnot : ∀ e ∈ [(0x20 : UInt8), 0x2d, 0x2b, 0x09, 0x0a, 0x0b, 0x0c, 0x0d], c ≠ e := by
    have hdigit : ∀ e ∈ [(0x20 : UInt8), 0x2d, 0x2b, 0x09, 0x0a, 0x0b, 0x0c, 0x0d],
        isDigit e = false := forall_mem_of_all (by decide)
    intro e he heq
    rw [heq, hdigit e he] at h
    cases h
  refine ⟨?_, hnot _ (by simp), hnot _ (by simp)⟩
  rw [isDigit, Bool.and_eq_true, decide_eq_true_iff, decide_eq_true_iff] at h
  rw [isSpace, Bool.or_eq_false_iff]
  refine ⟨decide_eq_false (hnot _ (by simp)), Bool.and_eq_false_imp.mpr fun _ => ?_⟩
  refine decide_eq_false fun hle => ?_
  have := UInt8.le_trans h.1 hle
  revert this
  decide

theorem atoi_digits (h : IsPort d) : atoi d = digitsValue d := by
  obtain ⟨hne, hdigits, hlt⟩ := h
  obtain ⟨c, cs, rfl⟩ := List.exists_cons_of_ne_nil hne
  obtain ⟨hspace, hminus, hplus⟩ := isDigit_ne (hdigits c List.mem_cons_self)
  have hvalue : ∀ (d : List UInt8) (n : Nat), (∀ c ∈ d, isDigit c = true) →
      d.foldl (fun n c => n * 10 + ((c.toNat : Int) - 0x30)) (n : Int) =
        (d.foldl (fun n c => n * 10 + (c.toNat - 0x30)) n : Nat) := by
    intro d
    induction d with
    | nil => exact fun _ _ => rfl
    | cons c d ih =>
        intro n hd
        obtain ⟨hc, hd⟩ := List.forall_mem_cons.mp hd
        have hc : 0x30 ≤ c.toNat := by
          rw [isDigit, Bool.and_eq_true, decide_eq_true_iff] at hc
          exact UInt8.le_iff_toNat_le.mp hc.1
        rw [List.foldl_cons, List.foldl_cons, ← ih _ hd]
        congr 1
        omega
  have hdrop : (c :: cs).dropWhile isSpace = c :: cs := by
    rw [List.dropWhile_cons_of_neg (by rw [hspace]; exact Bool.false_ne_true)]
  have htake : (c :: cs).takeWhile isDigit = c :: cs := List.takeWhile_eq_self_iff.mpr hdigits
  have hsign : ((c :: cs).headD 0 = 0x2d || (c :: cs).headD 0 = 0x2b) = false := by
    rw [List.headD_cons, decide_eq_false hminus, decide_eq_false hplus]
    rfl
  have hcast := hvalue (c :: cs) 0 hdigits
  rw [Int.natCast_zero] at hcast
  rw [digitsValue] at hlt
  rw [atoi, strtol, hdrop, hsign, if_neg Bool.false_ne_true, htake, List.headD_cons, if_neg hminus, hcast, digitsValue]
  generalize (c :: cs).foldl (fun n c => n * 10 + (c.toNat - 0x30)) 0 = n at hlt
  rw [Int.min_eq_left (by omega), Int.bmod_eq_of_le (by omega) (by omega)]

theorem scans_digits (d : List UInt8) :
    ∀ t : List UInt8, (∀ c ∈ d, isDigit c = true) → ports.length < maxPorts →
      (Scans (d ++ range) t ports p ↔ (d = [] ∨ t.length + d.length ≤ 5) ∧
        Scans range (t ++ d) ports p) := by
  induction d with
  | nil =>
      intro t _ _
      simp
  | cons c d ih =>
      intro t hd hroom
      obtain ⟨hc, hd⟩ := List.forall_mem_cons.mp hd
      rw [List.cons_append, scans_digit hroom hc, ih (t ++ [c]) hd hroom, List.append_assoc,
        List.singleton_append, List.length_append, List.length_singleton, List.length_cons,
        ← and_assoc]
      refine and_congr_left fun _ => ?_
      by_cases hnil : d = []
      · subst hnil
        simp only [List.length_nil, Nat.add_zero, true_or, and_true, List.cons_ne_self, Nat.zero_add,
          false_or]
        omega
      · simp only [hnil, reduceCtorEq, false_or]
        omega

/-- A number at the end of the text. -/
theorem scans_number_end (hd : IsPort d) (hroom : ports.length < maxPorts) :
    Scans d [] ports p ↔ d.length < 5 ∧
      p = { count := ports.length, entry := ((ports ++ [(digitsValue d : Int)]).getD · 0) } := by
  have h := @scans_digits [] ports p d [] hd.2.1 hroom
  rw [List.append_nil, List.nil_append, scans_nil, finishPorts, map_ok_iff] at h
  rw [h, ← atoi_digits hd]
  simp only [storePort_ok hroom, hd.1, false_or, List.length_nil, Nat.zero_add]
  constructor
  · rintro ⟨-, stored, ⟨hlen, rfl⟩, rfl⟩
    exact ⟨hlen, rfl⟩
  · rintro ⟨hlen, rfl⟩
    exact ⟨Nat.le_of_lt hlen, _, ⟨hlen, rfl⟩, rfl⟩

theorem scans_seps (sep : List UInt8) (hsep : ∀ c ∈ sep, isPortSep c = true) :
    Scans (sep ++ range) [] ports p ↔ Scans range [] ports p := by
  by_cases hfull : maxPorts ≤ ports.length
  · rw [scans_full hfull, scans_full hfull]
  · induction sep with
    | nil => rfl
    | cons c sep ih =>
        obtain ⟨hc, hsep⟩ := List.forall_mem_cons.mp hsep
        rw [List.cons_append,
          scans_other (Nat.lt_of_not_le hfull) (isPortSep_not_digit hc), if_pos hc,
          storedPorts, if_pos rfl, ih hsep]
        exact and_iff_right (by decide)

/-- A number with something behind it. -/
theorem scans_number {c : UInt8} (hd : IsPort d) (hroom : ports.length < maxPorts)
    (hc : isDigit c = false) :
    Scans (d ++ c :: range) [] ports p ↔ d.length < 5 ∧
      if isPortSep c then Scans range [] (ports ++ [(digitsValue d : Int)]) p
      else if c = 0x2e then ports.length + 1 < maxPorts ∧
        ∃ e more, range = e :: more ∧ Scans more [] (ports ++ [(digitsValue d : Int), -1]) p
      else Scans (c :: range) [] (ports ++ [(digitsValue d : Int)]) p := by
  rw [scans_digits d [] hd.2.1 hroom, List.nil_append, scans_other hroom hc, storedPorts,
    if_neg hd.1, atoi_digits hd, List.length_append, List.length_singleton, List.append_assoc]
  refine (and_iff_right_of_imp fun h => Or.inr ?_).trans Iff.rfl
  rw [List.length_nil, Nat.zero_add]
  exact Nat.le_of_lt h.1

theorem scans_number_sep (hd : IsPort d) (hroom : ports.length < maxPorts)
    (hsep : IsSeparator sep) :
    Scans (d ++ (sep ++ range)) [] ports p ↔
      d.length < 5 ∧ Scans range [] (ports ++ [(digitsValue d : Int)]) p := by
  obtain ⟨hne, hall⟩ := hsep
  obtain ⟨c, cs, rfl⟩ := List.exists_cons_of_ne_nil hne
  obtain ⟨hc, hall⟩ := List.forall_mem_cons.mp hall
  rw [List.cons_append, scans_number hd hroom (isPortSep_not_digit hc), if_pos hc,
    scans_seps cs hall]

theorem scans_number_dots (hd : IsPort d) (hroom : ports.length < maxPorts) :
    Scans (d ++ 0x2e :: 0x2e :: range) [] ports p ↔
      d.length < 5 ∧ ports.length + 1 < maxPorts ∧
        Scans range [] (ports ++ [(digitsValue d : Int), -1]) p := by
  rw [scans_number hd hroom (by decide), if_neg (by decide), if_pos rfl]
  refine and_congr_right fun _ => and_congr_right fun _ => ?_
  constructor
  · rintro ⟨e, more, heq, h⟩
    cases heq
    exact h
  · exact fun h => ⟨_, _, rfl, h⟩

/-- With all entries stored, the count is theirs. -/
theorem Scans.count_full (h : Scans range [] ports p) (hfull : maxPorts ≤ ports.length) :
    maxPorts ≤ p.count := by
  rw [scans_full hfull] at h
  cases h
  exact hfull

theorem entries_pos (x : PortItem) : 0 < x.entries.length := Nat.succ_pos _

/-- An item and a separator, with room for its entries. -/
theorem scans_item_sep (hx : x.WellFormed) (hsep : IsSeparator sep)
    (hroom : ports.length + x.entries.length ≤ maxPorts) :
    Scans (x.text ++ (sep ++ range)) [] ports p ↔
      x.Short ∧ Scans range [] (ports ++ x.entries) p := by
  obtain ⟨first, last⟩ := x
  cases last with
  | none =>
      rw [PortItem.text, Option.elim_none, List.append_nil,
        scans_number_sep hx.first (Nat.lt_of_succ_le hroom) hsep]
      simp [PortItem.Short, PortItem.entries]
  | some l =>
      have hlast := hx.last l rfl
      have hroom : ports.length + 3 ≤ maxPorts := hroom
      rw [PortItem.text, Option.elim_some, List.append_assoc, List.cons_append, List.cons_append,
        scans_number_dots hx.first (by omega),
        scans_number_sep hlast.1 (by simp only [List.length_append, List.length_cons, List.length_nil]; omega)
          hsep, List.append_assoc]
      have hmid : ports.length + 1 < maxPorts := by omega
      simp [PortItem.Short, PortItem.entries, hmid, and_assoc]

/-- An item at the end of the text: its last number is not counted. -/
theorem scans_item_end (hx : x.WellFormed)
    (hroom : ports.length + x.entries.length ≤ maxPorts) :
    Scans x.text [] ports p ↔ x.Short ∧
      p = { count := ports.length + x.entries.length - 1
            entry := ((ports ++ x.entries).getD · 0) } := by
  obtain ⟨first, last⟩ := x
  cases last with
  | none =>
      rw [PortItem.text, Option.elim_none, List.append_nil,
        scans_number_end hx.first (Nat.lt_of_succ_le hroom)]
      simp [PortItem.Short, PortItem.entries]
  | some l =>
      have hlast := hx.last l rfl
      have hroom : ports.length + 3 ≤ maxPorts := hroom
      rw [PortItem.text, Option.elim_some, scans_number_dots hx.first (by omega),
        scans_number_end hlast.1 (by simp only [List.length_append, List.length_cons, List.length_nil]; omega),
        List.append_assoc]
      have hmid : ports.length + 1 < maxPorts := by omega
      simp [PortItem.Short, PortItem.entries, hmid, and_assoc]

/-- An item without room for its entries fills the array. -/
theorem Scans.item_full (h : Scans (x.text ++ range) [] ports p) (hx : x.WellFormed)
    (hfull : maxPorts < ports.length + x.entries.length) : maxPorts ≤ p.count := by
  by_cases hroom : ports.length < maxPorts
  · obtain ⟨first, last⟩ := x
    cases last with
    | none =>
        have hfull : maxPorts < ports.length + 1 := hfull
        omega
    | some l =>
        rw [PortItem.text, Option.elim_some, List.append_assoc, List.cons_append, List.cons_append,
          scans_number_dots hx.first hroom] at h
        have hfull : maxPorts < ports.length + 3 := hfull
        refine h.2.2.count_full ?_
        simp only [List.length_append, List.length_cons, List.length_nil]
        omega
  · exact h.count_full (Nat.le_of_not_lt hroom)

/-- The entries of all items. -/
def allEntries (items : List PortItem) : List Int := items.flatMap PortItem.entries

/-- With room for all entries, they are what is stored. -/
theorem scans_items (rest : List (List UInt8 × PortItem)) :
    ∀ (x : PortItem) (ports : List Int), PortList x rest →
      ports.length + (allEntries (portItems x rest)).length ≤ maxPorts →
      (Scans (portText x rest) [] ports p ↔ (∀ y ∈ portItems x rest, y.Short) ∧
        p = { count := ports.length + (allEntries (portItems x rest)).length - 1
              entry := ((ports ++ allEntries (portItems x rest)).getD · 0) }) := by
  induction rest with
  | nil =>
      intro x ports hlist hroom
      have hall : allEntries (portItems x []) = x.entries := by simp [allEntries, portItems]
      rw [hall] at hroom ⊢
      rw [portText, scans_item_end (hlist.1 x List.mem_cons_self) hroom]
      simp [portItems]
  | cons q rest ih =>
      intro x ports hlist hroom
      obtain ⟨sep, y⟩ := q
      have hall : allEntries (portItems x ((sep, y) :: rest)) =
          x.entries ++ allEntries (portItems y rest) := rfl
      have hrest : PortList y rest :=
        ⟨fun z hz => hlist.1 z (List.mem_cons_of_mem _ hz),
          fun r hr => hlist.2 r (List.mem_cons_of_mem _ hr)⟩
      rw [hall, List.length_append] at hroom ⊢
      rw [portText, scans_item_sep (hlist.1 x List.mem_cons_self) (hlist.2 _ List.mem_cons_self)
        (by omega), ih y _ hrest (by rw [List.length_append]; omega), List.length_append,
        List.append_assoc, Nat.add_assoc, ← and_assoc]
      refine and_congr_left fun _ => ?_
      show _ ↔ ∀ z ∈ x :: portItems y rest, z.Short
      rw [List.forall_mem_cons]

/-- Without it the array is filled. -/
theorem Scans.items_full (rest : List (List UInt8 × PortItem)) :
    ∀ (x : PortItem) (ports : List Int), PortList x rest →
      maxPorts < ports.length + (allEntries (portItems x rest)).length →
      Scans (portText x rest) [] ports p → maxPorts ≤ p.count := by
  induction rest with
  | nil =>
      intro x ports hlist hfull h
      have hall : allEntries (portItems x []) = x.entries := by simp [allEntries, portItems]
      rw [hall] at hfull
      rw [portText, ← List.append_nil x.text] at h
      exact h.item_full (hlist.1 x List.mem_cons_self) hfull
  | cons q rest ih =>
      intro x ports hlist hfull h
      obtain ⟨sep, y⟩ := q
      have hall : allEntries (portItems x ((sep, y) :: rest)) =
          x.entries ++ allEntries (portItems y rest) := rfl
      have hrest : PortList y rest :=
        ⟨fun z hz => hlist.1 z (List.mem_cons_of_mem _ hz),
          fun r hr => hlist.2 r (List.mem_cons_of_mem _ hr)⟩
      rw [hall, List.length_append] at hfull
      rw [portText] at h
      by_cases hroom : ports.length + x.entries.length ≤ maxPorts
      · rw [scans_item_sep (hlist.1 x List.mem_cons_self) (hlist.2 _ List.mem_cons_self) hroom] at h
        exact ih y _ hrest (by rw [List.length_append]; omega) h.2
      · exact h.item_full (hlist.1 x List.mem_cons_self) (Nat.lt_of_not_le hroom)

end Items

/-! ## The ports that are added -/

theorem mem_portRange {t last p : Int} : p ∈ portRange t last ↔ t ≤ p ∧ p ≤ last := by
  rw [portRange, List.mem_map]
  constructor
  · rintro ⟨k, hk, rfl⟩
    have := List.mem_range.mp hk
    omega
  · intro h
    exact ⟨(p - t).toNat, List.mem_range.mpr (by omega), by omega⟩

/-- What the second loop adds for an item. -/
def PortItem.added (x : PortItem) : List Int :=
  (digitsValue x.first : Int) ::
    x.last.elim [] fun l => portRange (digitsValue x.first) (digitsValue l)

theorem PortItem.WellFormed.mem_added {x : PortItem} (h : x.WellFormed) {p : Int} :
    p ∈ x.added ↔ x.Lists p := by
  obtain ⟨first, last⟩ := x
  cases last with
  | none => simp [PortItem.added, PortItem.Lists]
  | some l =>
      have hle : digitsValue first ≤ digitsValue l := (h.last l rfl).2
      rw [PortItem.added, PortItem.Lists, Option.elim_some, Option.elim_some, List.mem_cons,
        mem_portRange]
      exact or_iff_right_of_imp fun heq => by
        rw [heq]
        exact ⟨Int.le_refl _, Int.ofNat_le.mpr hle⟩

theorem getD_append_mid (pre : List Int) (v : Int) (more : List Int) :
    (pre ++ v :: more).getD pre.length 0 = v := by
  simp

section Add

variable {entry : Nat → Int} {n i : Nat} {t : Int}

theorem addPorts_port (hi : i < maxPorts) (hport : entry i ≠ -1) :
    addPorts entry (n + 1) i t = (addPorts entry n (i + 1) (entry i)).map (entry i :: ·) := by
  rw [addPorts.eq_def]
  dsimp only
  rw [if_neg (Nat.not_le_of_lt hi), if_pos hport]

theorem addPorts_range (hi : i + 1 < maxPorts) (hmark : entry i = -1) :
    addPorts entry (n + 2) i t = (addPorts entry n (i + 2) (max t (entry (i + 1) + 1))).map
      (portRange t (entry (i + 1)) ++ ·) := by
  rw [addPorts.eq_def]
  dsimp only
  rw [if_neg (by omega), if_neg (not_not.mpr hmark), if_neg (Nat.not_le_of_lt hi)]

end Add

/-- The second loop, over the entries of items. -/
theorem addPorts_items (items : List PortItem) :
    ∀ (pre : List Int) (t : Int), pre.length + (allEntries items).length ≤ maxPorts →
      addPorts ((pre ++ allEntries items).getD · 0) (allEntries items).length pre.length t =
        .ok (items.flatMap PortItem.added) := by
  induction items with
  | nil => exact fun _ _ _ => rfl
  | cons x items ih =>
      intro pre t hroom
      obtain ⟨first, last⟩ := x
      have hne : ∀ n : Nat, (n : Int) ≠ -1 := by omega
      cases last with
      | none =>
          have hall : allEntries (⟨first, none⟩ :: items) =
              (digitsValue first : Int) :: allEntries items := rfl
          rw [hall, List.length_cons] at hroom ⊢
          have hrec := ih (pre ++ [(digitsValue first : Int)]) (digitsValue first)
            (by rw [List.length_append, List.length_singleton]; omega)
          rw [List.append_assoc, List.singleton_append, List.length_append,
            List.length_singleton] at hrec
          have hget := getD_append_mid pre (digitsValue first) (allEntries items)
          rw [addPorts_port (by omega) (by rw [hget]; exact hne _), hget, hrec]
          rfl
      | some l =>
          have hall : allEntries (⟨first, some l⟩ :: items) =
              (digitsValue first : Int) :: -1 :: (digitsValue l : Int) :: allEntries items := rfl
          rw [hall] at hroom ⊢
          simp only [List.length_cons] at hroom ⊢
          have hrec := fun t' => ih (pre ++ [(digitsValue first : Int), -1, (digitsValue l : Int)]) t'
            (by simp only [List.length_append, List.length_cons, List.length_nil]; omega)
          simp only [List.append_assoc, List.cons_append, List.nil_append, List.length_append,
            List.length_cons, List.length_nil] at hrec
          have hmark := getD_append_mid (pre ++ [(digitsValue first : Int)]) (-1)
            ((digitsValue l : Int) :: allEntries items)
          have hlast := getD_append_mid (pre ++ [(digitsValue first : Int), -1]) (digitsValue l)
            (allEntries items)
          simp only [List.append_assoc, List.cons_append, List.nil_append, List.length_append,
            List.length_cons, List.length_nil] at hmark hlast
          have hfirst := getD_append_mid pre (digitsValue first)
            (-1 :: (digitsValue l : Int) :: allEntries items)
          rw [addPorts_port (by omega) (by rw [hfirst]; exact hne _), hfirst,
            addPorts_range (by omega) hmark, hlast, hrec]
          rfl

/-- It reads behind the array when the array is full. -/
theorem addPorts_full (entry : Nat → Int) (n : Nat) :
    ∀ (i : Nat) (t : Int) (ports : List Int), i ≤ maxPorts → maxPorts < i + n →
      addPorts entry n i t ≠ .ok ports := by
  induction n using Nat.strongRecOn with
  | ind n ih =>
      intro i t ports hi hn h
      cases n with
      | zero => omega
      | succ n =>
          rw [addPorts.eq_def] at h
          dsimp only at h
          split at h
          · cases h
          split at h
          · obtain ⟨more, hmore, -⟩ := map_ok_iff.mp h
            exact ih n (Nat.lt_succ_self n) (i + 1) _ more (by omega) (by omega) hmore
          split at h
          · cases h
          cases n with
          | zero => omega
          | succ n =>
              obtain ⟨more, hmore, -⟩ := map_ok_iff.mp h
              exact ih n (by omega) (i + 2) _ more (by omega) (by omega) hmore

/-! ## The form -/

/-- All numbers have four digits at most, and the entries, one for a port and three
for a range, have room. Without an address there is a listener to add to and more than
one entry; with one it does not start with `ALL`. -/
def CommitFits (found : Bool) (address : List UInt8) (items : List PortItem) : Prop :=
  (∀ y ∈ items, y.Short) ∧ (allEntries items).length ≤ maxPorts ∧
    if address = [] then found = true ∧ (allEntries items).length ≠ 1
    else ircStrncmp address (ascii ['A', 'L', 'L']) 3 ≠ 0

section Form

variable {found : Bool} {memory : Nat → Int} {address : List UInt8} {x : PortItem}
  {rest : List (List UInt8 × PortItem)}

theorem portText_ne_nil (hlist : PortList x rest) : portText x rest ≠ [] := by
  have hfirst : x.first ≠ [] := (hlist.1 x List.mem_cons_self).first.1
  have htext : x.text ≠ [] := List.append_ne_nil_of_left_ne_nil hfirst _
  cases rest with
  | nil => exact htext
  | cons q rest => exact List.append_ne_nil_of_left_ne_nil htext _

theorem commitListener_ok (hlist : PortList x rest) {P : List Int → Prop} :
    (∃ fuel ports, commitListener fuel found memory address (portText x rest) = .ok ports ∧ P ports) ↔
      ∃ p, Scans (portText x rest) [] [] p ∧
        ∃ ports, commitPorts found address p = .ok ports ∧ P ports := by
  simp only [commitListener, if_neg (portText_ne_nil hlist), bind_ok_iff]
  constructor
  · rintro ⟨fuel, ports, ⟨p, hp, hports⟩, hP⟩
    exact ⟨p, ⟨fuel, hp⟩, ports, hports, hP⟩
  · rintro ⟨p, ⟨fuel, hp⟩, ports, hports, hP⟩
    exact ⟨fuel, ports, ⟨p, hp, hports⟩, hP⟩

/-- What `commitPorts` gets through with all items stored. -/
theorem commitPorts_items (items : List PortItem) (hne : items ≠ [])
    (hroom : (allEntries items).length ≤ maxPorts) (hwf : ∀ y ∈ items, y.WellFormed) :
    (∃ ports, commitPorts found address
        { count := (allEntries items).length - 1, entry := ((allEntries items).getD · 0) } =
          .ok ports ∧ ∀ p, p ∈ ports ↔ ∃ y ∈ items, y.Lists p) ↔
      if address = [] then found = true ∧ (allEntries items).length ≠ 1
      else ircStrncmp address (ascii ['A', 'L', 'L']) 3 ≠ 0 := by
  obtain ⟨y, ys, rfl⟩ := List.exists_cons_of_ne_nil hne
  have hpos : 0 < (allEntries (y :: ys)).length := by
    have hall : allEntries (y :: ys) = y.entries ++ allEntries ys := rfl
    have := entries_pos y
    rw [hall, List.length_append]
    omega
  have hadd := addPorts_items (y :: ys) [] (-1) (by rw [List.length_nil, Nat.zero_add]; exact hroom)
  rw [List.nil_append, List.length_nil] at hadd
  have hexact : ∃ ports, addPorts ((allEntries (y :: ys)).getD · 0)
      ((allEntries (y :: ys)).length - 1 + 1) 0 (-1) = .ok ports ∧
        ∀ p, p ∈ ports ↔ ∃ z ∈ y :: ys, z.Lists p := by
    rw [Nat.sub_add_cancel hpos]
    refine ⟨_, hadd, fun p => ?_⟩
    rw [List.mem_flatMap]
    exact exists_congr fun z => and_congr_right fun hz => (hwf z hz).mem_added
  rw [commitPorts]
  by_cases haddr : address = []
  · rw [if_pos haddr, if_pos haddr]
    dsimp only
    by_cases hone : (allEntries (y :: ys)).length = 1
    · rw [if_pos (by omega)]
      refine iff_of_false ?_ fun h => h.2 hone
      rintro ⟨ports, hports, hall⟩
      cases hports
      obtain ⟨p, hp⟩ : ∃ p, p ∈ y.added := ⟨_, List.mem_cons_self⟩
      have := (hall p).mpr ⟨y, List.mem_cons_self, (hwf y List.mem_cons_self).mem_added.mp hp⟩
      cases this
    · rw [if_neg (by omega)]
      cases found with
      | true => exact iff_of_true hexact ⟨rfl, hone⟩
      | false =>
          refine iff_of_false ?_ fun h => Bool.false_ne_true h.1
          rintro ⟨ports, hports, -⟩
          cases hports
  · rw [if_neg haddr, if_neg haddr]
    by_cases hmatch : ircStrncmp address (ascii ['A', 'L', 'L']) 3 = 0
    · rw [if_pos hmatch]
      refine iff_of_false ?_ (not_not.mpr hmatch)
      rintro ⟨ports, hports, -⟩
      cases hports
    · rw [if_neg hmatch]
      exact iff_of_true hexact hmatch

/-- With a full array there is no way through. -/
theorem commitPorts_full {p : Ports} (hfull : maxPorts ≤ p.count) (ports : List Int) :
    commitPorts found address p ≠ .ok ports := by
  have hadd : addPorts p.entry (p.count + 1) 0 (-1) ≠ .ok ports :=
    addPorts_full p.entry (p.count + 1) 0 (-1) ports (Nat.zero_le _) (by omega)
  have hpos : 0 < p.count := Nat.lt_of_lt_of_le (by decide) hfull
  rw [commitPorts]
  split
  · rw [if_neg (by omega)]
    split
    · exact hadd
    · exact fun h => by cases h
  · split
    · exact fun h => by cases h
    · exact hadd

end Form

/-- The loop over any text ends and stays inside exactly if the text is safe; and for a
list of ports and ranges the ports that are added are those of the list exactly if the
numbers are short, their entries fit, and the address leads to a place to add them. -/
theorem commitListener_exact_iff (range : List UInt8) :
    ((∃ fuel ports, portLoop fuel range [] [] = .ok ports) ↔ portsSafe range 0 0 = true) ∧
    ∀ x rest found memory address, PortList x rest →
      ((∃ fuel ports, commitListener fuel found memory address (portText x rest) = .ok ports ∧
          ∀ p, p ∈ ports ↔ ∃ y ∈ portItems x rest, y.Lists p) ↔
        CommitFits found address (portItems x rest)) := by
  refine ⟨?_, fun x rest found memory address hlist => ?_⟩
  · rw [exists_comm]
    exact scans_safe range [] []
  · rw [commitListener_ok hlist, CommitFits]
    by_cases hroom : (allEntries (portItems x rest)).length ≤ maxPorts
    · have hscan := fun p => @scans_items p rest x [] hlist
        (by rw [List.length_nil, Nat.zero_add]; exact hroom)
      simp only [hscan, List.length_nil, Nat.zero_add, List.nil_append]
      rw [and_iff_right hroom, ← commitPorts_items (portItems x rest) (List.cons_ne_nil _ _) hroom hlist.1]
      constructor
      · rintro ⟨p, ⟨hshort, rfl⟩, h⟩
        exact ⟨hshort, h⟩
      · rintro ⟨hshort, h⟩
        exact ⟨_, ⟨hshort, rfl⟩, h⟩
    · refine iff_of_false ?_ fun h => hroom h.2.1
      rintro ⟨p, hp, ports, hports, -⟩
      refine commitPorts_full (Scans.items_full rest x [] hlist ?_ hp) ports hports
      rw [List.length_nil, Nat.zero_add]
      exact Nat.lt_of_not_le hroom

/-- The port 80 and the range from 6660 to 6662. -/
theorem commitListener_exact_range :
    ∃ fuel ports, commitListener fuel true (fun _ => 0) (ascii ['*'])
        (ascii ['8', '0', ',', '6', '6', '6', '0', '.', '.', '6', '6', '6', '2']) = .ok ports ∧
      (6661 ∈ ports ∧ 6663 ∉ ports) := by
  let x : PortItem := ⟨ascii ['8', '0'], none⟩
  let y : PortItem := ⟨ascii ['6', '6', '6', '0'], some (ascii ['6', '6', '6', '2'])⟩
  have hport : ∀ d ∈ [ascii ['8', '0'], ascii ['6', '6', '6', '0'], ascii ['6', '6', '6', '2']],
      IsPort d := by
    intro d hd
    simp only [List.mem_cons, List.not_mem_nil, or_false] at hd
    rcases hd with rfl | rfl | rfl
    all_goals exact ⟨by decide, forall_mem_of_all (by decide), by decide⟩
  have hlist : PortList x [(ascii [','], y)] := by
    refine ⟨fun z hz => ?_, fun q hq => ?_⟩
    · simp only [portItems, List.map_cons, List.map_nil, List.mem_cons, List.not_mem_nil,
        or_false] at hz
      rcases hz with rfl | rfl
      · exact ⟨hport _ (by simp [x]), fun l hl => by cases hl⟩
      · refine ⟨hport _ (by simp [y]), fun l hl => ?_⟩
        cases hl
        exact ⟨hport _ (by simp), by decide⟩
    · rw [List.mem_singleton.mp hq]
      exact ⟨by decide, forall_mem_of_all (by decide)⟩
  have hfits : CommitFits true (ascii ['*']) (portItems x [(ascii [','], y)]) := by
    refine ⟨fun z hz => ?_, by decide, by decide⟩
    simp only [portItems, List.map_cons, List.map_nil, List.mem_cons, List.not_mem_nil,
      or_false] at hz
    rcases hz with rfl | rfl
    · exact ⟨by decide, fun l hl => by cases hl⟩
    · refine ⟨by decide, fun l hl => ?_⟩
      cases hl
      decide
  obtain ⟨fuel, ports, hports, hmem⟩ := ((commitListener_exact_iff []).2 x [(ascii [','], y)] true
    (fun _ => 0) (ascii ['*']) hlist).mpr hfits
  refine ⟨fuel, ports, hports, (hmem _).mpr ⟨y, by simp [portItems], by decide⟩, fun hin => ?_⟩
  obtain ⟨z, hz, hlists⟩ := (hmem _).mp hin
  simp only [portItems, List.map_cons, List.map_nil, List.mem_cons, List.not_mem_nil,
    or_false] at hz
  rcases hz with rfl | rfl
  · exact absurd hlists (by decide)
  · exact absurd hlists (by decide)

/-- A dash is never passed, a port of five digits leaves no room for its NUL, and a
single port without an address is not added. -/
theorem commitListener_lost :
    (∀ fuel ports, portLoop fuel (ascii ['8', '0', '-', '8', '5']) [] [] ≠ .ok ports) ∧
      commitListener 6 true (fun _ => 0) (ascii ['*']) (ascii ['1', '0', '0', '0', '0']) =
        .error .overflow ∧
      commitListener 3 true (fun _ => 0) [] (ascii ['8', '0']) = .ok [] := by
  refine ⟨fun fuel ports h => ?_, rfl, rfl⟩
  have hsafe := (scans_safe (ascii ['8', '0', '-', '8', '5']) [] []).mp ⟨ports, fuel, h⟩
  revert hsafe
  decide

end TrIrcd
