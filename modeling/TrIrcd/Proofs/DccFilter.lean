import Mathlib.Data.List.Induction
import TrIrcd.Proofs.CtcpScan
import TrIrcd.Proofs.FormatBounds
import TrIrcd.Src.Dcc

/-!
# Which files `check_dccsend` blocks

The scan for the dot starts on the byte that ends the name and counts it, which the
decrement at the dot makes up for, so `extlen` is the length of what stands behind
the last dot (`scanExt_dot`). It gets to the first byte of the name without looking
at it, which is why a dot there does not count and nothing in front of the name is
read. The length selects a table whose entries are as long as the extension, so the
comparison of the first bytes is one of the whole (`findExploit_spec`).
-/

namespace TrIrcd

open TrIrcd.Lib

/-- A letter in lower case. -/
def asciiLower (c : UInt8) : UInt8 := if 0x41 ≤ c ∧ c ≤ 0x5a then c + 0x20 else c

/-- There is a dot behind the first character, and this behind the last one. -/
def HasExtension (name ext : List UInt8) : Prop :=
  ∃ pre, pre ≠ [] ∧ name = pre ++ 0x2e :: ext ∧ 0x2e ∉ ext

/-- The extensions that are blocked. -/
def blockedExtensions : List (List UInt8) := exploits2char ++ exploits3char ++ exploits4char

/-- The file has one of these extensions, in any case. -/
def BlockedName (name : List UInt8) : Prop :=
  ∃ ext, HasExtension name ext ∧ ext.map asciiLower ∈ blockedExtensions

/-- `"DCC SEND"` -/
def dccSendText : List UInt8 := dccText ++ sendText

/-- `DCC SEND`, blanks, a name and what else there is; behind its NUL the message is
memory. -/
structure DccMessage (msg name : List UInt8) : Prop where
  noNul : 0 ∉ name
  noSpace : 0x20 ∉ name
  text : ∃ k rest behind,
    msg = dccSendText ++ (List.replicate k 0x20 ++ (name ++ rest ++ 0 :: behind)) ∧
    (rest = [] ∨ name ≠ [] ∧ rest.head? = some 0x20)

/-- The sender has no privileges, and the receiver is another local user who has allowed
neither the sender nor everything. -/
structure Filtered (client : Nat → DccClient) (source target : Nat) : Prop where
  other : source ≠ target
  person : (client source).person = true
  notOper : (client source).anOper = false
  my : (client target).my = true
  notAll : (client target).dccallowAll = false
  notAllowed : source ∉ (client target).dccallow

/-! ## The scan -/

section Scan

variable {pre w rest : List UInt8}

theorem nameByte_middle (pre rest : List UInt8) (c : UInt8) :
    nameByte (pre ++ c :: rest) pre.length = .ok c := by
  simp only [nameByte, Int.toNat_natCast, getElem?_middle, if_pos (Int.natCast_nonneg _)]

theorem nameByte_head (c : UInt8) (rest : List UInt8) : nameByte (c :: rest) 0 = .ok c := rfl

/-- Bytes that are no dots only count. -/
theorem scanExt_skip (hpre : pre ≠ []) (hw : 0x2e ∉ w) :
    ∀ {rest : List UInt8} {fuel : Nat} {extlen : Int},
      scanExt (pre ++ w ++ rest) (fuel + w.length) ((pre ++ w).length - 1 : Int) extlen =
        scanExt (pre ++ w ++ rest) fuel (pre.length - 1 : Int) (extlen + w.length) := by
  induction w using List.reverseRecOn with
  | nil =>
      intro rest fuel extlen
      simp
  | append_singleton w c ih =>
      intro rest fuel extlen
      have hc : c ≠ 0x2e := fun h =>
        hw (h ▸ List.mem_append_right w (List.mem_singleton_self c))
      have hpos : 0 < (pre ++ w).length :=
        Nat.lt_of_lt_of_le (List.length_pos_iff.mpr hpre) (by rw [List.length_append]; omega)
      have hmem : pre ++ (w ++ [c]) ++ rest = pre ++ w ++ c :: rest := by
        simp only [List.append_assoc, List.cons_append, List.nil_append]
      have hplace : ((pre ++ (w ++ [c])).length - 1 : Int) = (pre ++ w).length := by
        rw [← List.append_assoc, List.length_append, List.length_singleton]
        omega
      have hrest := @ih (fun h => hw (List.mem_append_left [c] h)) (c :: rest) fuel (extlen + 1)
      rw [hmem, hplace, List.length_append, List.length_singleton, ← Nat.add_assoc, scanExt,
        if_neg (by omega), nameByte_middle]
      simp only [bind, Except.bind, if_neg hc, hrest]
      congr 1
      omega

/-- The last dot of the name: what stands behind it, and how much that is. -/
theorem scanExt_dot {ext : List UInt8} {t : UInt8} (hpre : pre ≠ []) (hext : 0x2e ∉ ext)
    (ht : t ≠ 0x2e) (fuel : Nat) :
    scanExt (pre ++ 0x2e :: (ext ++ t :: rest)) (fuel + 1 + (ext ++ [t]).length)
        (pre ++ 0x2e :: ext).length 0 =
      .ok (some ((pre.length : Int) + 1, (ext.length : Int))) := by
  have hw : 0x2e ∉ ext ++ [t] := fun h =>
    (List.mem_append.mp h).elim hext fun h => ht (List.mem_singleton.mp h).symm
  have hskip := @scanExt_skip (pre ++ [0x2e]) (ext ++ [t]) (List.concat_ne_nil _ _) hw rest
    (fuel + 1) 0
  have hmem : pre ++ [0x2e] ++ (ext ++ [t]) ++ rest = pre ++ 0x2e :: (ext ++ t :: rest) := by
    simp only [List.append_assoc, List.cons_append, List.nil_append]
  have hstart : ((pre ++ [0x2e] ++ (ext ++ [t])).length - 1 : Int) =
      (pre ++ 0x2e :: ext).length := by
    simp only [List.length_append, List.length_cons, List.length_nil]
    omega
  have hdot : ((pre ++ [0x2e]).length - 1 : Int) = pre.length := by
    rw [List.length_append, List.length_singleton]
    omega
  have hpos := List.length_pos_iff.mpr hpre
  rw [hmem, hstart, hdot, scanExt, if_neg (by omega), nameByte_middle] at hskip
  rw [hskip, List.length_append, List.length_singleton]
  simp only [bind, Except.bind, if_true]
  congr 3
  omega

/-- Without a dot behind the first character the scan ends there. -/
theorem scanExt_none {c t : UInt8} {text : List UInt8} (htext : 0x2e ∉ text) (ht : t ≠ 0x2e)
    (fuel : Nat) :
    scanExt (c :: (text ++ t :: rest)) (fuel + 1 + (text ++ [t]).length) (c :: text).length 0 =
      .ok none := by
  have hw : 0x2e ∉ text ++ [t] := fun h =>
    (List.mem_append.mp h).elim htext fun h => ht (List.mem_singleton.mp h).symm
  have hskip := @scanExt_skip [c] (text ++ [t]) (List.cons_ne_nil _ _) hw rest (fuel + 1) 0
  have hmem : [c] ++ (text ++ [t]) ++ rest = c :: (text ++ t :: rest) := by
    simp only [List.append_assoc, List.cons_append, List.nil_append]
  have hstart : (([c] ++ (text ++ [t])).length - 1 : Int) = (c :: text).length := by
    simp only [List.length_append, List.length_cons, List.length_nil]
    omega
  rw [hmem, hstart] at hskip
  rw [hskip, scanExt]
  exact if_pos rfl

end Scan

/-! ## The tables -/

section Tables

variable {e ext a b : List UInt8}

/-- As many bytes as both have. -/
theorem ircStrncmpIn_whole : ∀ {e ext : List UInt8}, e ≠ [] → e.length = ext.length → 0 ∉ e →
    ∃ res, ircStrncmpIn (e ++ a) (ext ++ b) e.length = .ok res ∧
      (res = 0 ↔ e.map toUpper = ext.map toUpper)
  | [], _, hne, _, _ => absurd rfl hne
  | d :: e, [], _, hlen, _ => absurd hlen (Nat.succ_ne_zero _)
  | d :: e, c :: ext, _, hlen, h0 => by
      have hlen' : e.length = ext.length := Nat.succ.inj hlen
      by_cases hd : toUpper d = toUpper c
      · have hone : ((d :: e).length : Int) - 1 = e.length := by
          rw [List.length_cons]
          omega
        have hcons : (d :: e).map toUpper = (c :: ext).map toUpper ↔
            e.map toUpper = ext.map toUpper := by
          rw [List.map_cons, List.map_cons, hd, List.cons_inj_right]
        rw [List.cons_append, List.cons_append, ircStrncmpIn_eq hd, hone, hcons]
        cases e with
        | nil =>
            refine ⟨0, if_pos rfl, iff_of_true rfl ?_⟩
            rw [List.eq_nil_of_length_eq_zero hlen'.symm]
        | cons d' e' =>
            have hd' : d' ≠ 0 := fun h => h0 (by rw [h]; simp)
            obtain ⟨res, hres, hiff⟩ := ircStrncmpIn_whole (List.cons_ne_nil d' e') hlen'
              fun h => h0 (List.mem_cons_of_mem d h)
            refine ⟨res, ?_, hiff⟩
            rw [if_neg (by rw [List.length_cons]; omega), if_neg fun h => hd' (Option.some.inj h.1)]
            exact hres
      · obtain ⟨res, hres, hne⟩ := ircStrncmpIn_ne hd
        refine ⟨res, hres, iff_of_false hne fun h => hd (List.cons.inj h).1⟩

theorem findExploit_spec {n : Nat} {farray : List (List UInt8)} (hn : 0 < n)
    (hlen : ext.length = n) (hall : ∀ e ∈ farray, e.length = n ∧ 0 ∉ e) :
    ∃ found, findExploit (ext ++ b) n farray = .ok found ∧
      (found = true ↔ ∃ e ∈ farray, e.map toUpper = ext.map toUpper) := by
  induction farray with
  | nil => exact ⟨false, rfl, iff_of_false Bool.false_ne_true fun ⟨e, he, _⟩ => nomatch he⟩
  | cons e farray ih =>
      obtain ⟨helen, he0⟩ := hall e List.mem_cons_self
      have hne : e ≠ [] := List.ne_nil_of_length_pos (by omega)
      obtain ⟨res, hres, hiff⟩ := @ircStrncmpIn_whole [0] b e ext hne (helen.trans hlen.symm) he0
      obtain ⟨found, hfound, hspec⟩ := ih fun e he => hall e (List.mem_cons_of_mem _ he)
      rw [helen] at hres
      rw [findExploit, hres]
      simp only [bind, Except.bind, List.exists_mem_cons_iff]
      by_cases hzero : res = 0
      · rw [if_pos hzero]
        exact ⟨true, rfl, iff_of_true rfl (.inl (hiff.mp hzero))⟩
      · rw [if_neg hzero, hfound]
        exact ⟨found, rfl, hspec.trans (or_iff_right fun h => hzero (hiff.mpr h)).symm⟩

theorem toUpper_eq_iff {c d : UInt8} (hd : 0x61 ≤ d ∧ d ≤ 0x7a) :
    toUpper d = toUpper c ↔ asciiLower c = d := by
  simp only [toUpper, asciiLower]
  grind

/-- An entry is in lower case, so this is equality in any case. -/
theorem map_toUpper_eq_iff : ∀ {e ext : List UInt8}, (∀ d ∈ e, 0x61 ≤ d ∧ d ≤ 0x7a) →
    (e.map toUpper = ext.map toUpper ↔ ext.map asciiLower = e)
  | [], [], _ => iff_of_true rfl rfl
  | [], c :: ext, _ => iff_of_false (List.cons_ne_nil _ _).symm (List.cons_ne_nil _ _)
  | d :: e, [], _ => iff_of_false (List.cons_ne_nil _ _) (List.cons_ne_nil _ _).symm
  | d :: e, c :: ext, hall => by
      rw [List.map_cons, List.map_cons, List.map_cons, List.cons.injEq, List.cons.injEq,
        toUpper_eq_iff (hall d List.mem_cons_self),
        map_toUpper_eq_iff fun d hd => hall d (List.mem_cons_of_mem _ hd)]

/-- The extensions by their length. -/
theorem mem_blockedExtensions (x : List UInt8) :
    x ∈ blockedExtensions ↔ x.length = 2 ∧ x ∈ exploits2char ∨ x.length = 3 ∧ x ∈ exploits3char ∨
      x.length = 4 ∧ x ∈ exploits4char := by
  have h2 : ∀ e ∈ exploits2char, e.length = 2 := by decide
  have h3 : ∀ e ∈ exploits3char, e.length = 3 := by decide
  have h4 : ∀ e ∈ exploits4char, e.length = 4 := by decide
  rw [blockedExtensions, List.mem_append, List.mem_append, or_assoc,
    and_iff_right_of_imp (h2 x), and_iff_right_of_imp (h3 x), and_iff_right_of_imp (h4 x)]

/-- The table for a length, if there is one. -/
structure IsTable (ext : List UInt8) (farray : List (List UInt8)) (arraysz : Int) : Prop where
  size : arraysz = ext.length
  pos : 0 < ext.length
  short : ext.length ≤ 4
  length : ∀ e ∈ farray, e.length = ext.length
  lower : ∀ e ∈ farray, ∀ d ∈ e, 0x61 ≤ d ∧ d ≤ 0x7a
  blocked : ext.map asciiLower ∈ blockedExtensions ↔ ext.map asciiLower ∈ farray

theorem exploits_none (h : exploits ext.length = none) :
    ext.map asciiLower ∉ blockedExtensions := by
  rw [mem_blockedExtensions, List.length_map]
  rw [exploits] at h
  split at h
  · cases h
  · split at h
    · cases h
    · split at h
      · cases h
      · omega

theorem isTable {n : Nat} {table : List (List UInt8)} (hext : (ext.length : Int) = n)
    (hn : 0 < n ∧ n ≤ 4) (hlen : ∀ e ∈ table, e.length = n)
    (hlower : table.all (fun e => e.all fun d => decide (0x61 ≤ d ∧ d ≤ 0x7a)) = true)
    (hblocked : ∀ x : List UInt8, x.length = n → (x ∈ blockedExtensions ↔ x ∈ table)) :
    IsTable ext table n := by
  have hext' : ext.length = n := Int.natCast_inj.mp hext
  refine ⟨hext.symm, hext'.symm ▸ hn.1, hext'.symm ▸ hn.2, hext'.symm ▸ hlen,
    fun e he d hd => ?_, ?_⟩
  · exact of_decide_eq_true (List.all_eq_true.mp (List.all_eq_true.mp hlower e he) d hd)
  · exact hblocked _ ((List.length_map _).trans hext')

theorem exploits_some {farray : List (List UInt8)} {arraysz : Int}
    (h : exploits ext.length = some (farray, arraysz)) : IsTable ext farray arraysz := by
  rw [exploits] at h
  split at h
  case isTrue h2 =>
    cases h
    refine isTable h2 (by decide) (by decide) (by decide) fun x hx => ?_
    rw [mem_blockedExtensions, hx]
    simp
  case isFalse =>
    split at h
    case isTrue h3 =>
      cases h
      refine isTable h3 (by decide) (by decide) (by decide) fun x hx => ?_
      rw [mem_blockedExtensions, hx]
      simp
    case isFalse =>
      split at h
      case isTrue h4 =>
        cases h
        refine isTable h4 (by decide) (by decide) (by decide) fun x hx => ?_
        rw [mem_blockedExtensions, hx]
        simp
      case isFalse => cases h

/-- What the loop finds in the table. -/
theorem IsTable.found {farray : List (List UInt8)} {arraysz : Int}
    (h : IsTable ext farray arraysz) (b : List UInt8) :
    ∃ found, findExploit (ext ++ b) arraysz farray = .ok found ∧
      (found = true ↔ ext.map asciiLower ∈ blockedExtensions) := by
  have hall : ∀ e ∈ farray, e.length = ext.length ∧ 0 ∉ e := fun e he =>
    ⟨h.length e he, fun h0 => absurd (h.lower e he 0 h0).1 (by decide)⟩
  obtain ⟨found, hfound, hspec⟩ := findExploit_spec (b := b) h.pos rfl hall
  refine ⟨found, h.size ▸ hfound, ?_⟩
  rw [hspec, h.blocked]
  constructor
  · rintro ⟨e, he, heq⟩
    rwa [(map_toUpper_eq_iff (h.lower e he)).mp heq]
  · exact fun hmem => ⟨_, hmem, (map_toUpper_eq_iff (h.lower _ hmem)).mpr rfl⟩

end Tables

/-! ## The copies -/

theorem copyText_spec {text rest dst : List UInt8} (h0 : 0 ∉ text)
    (hlen : text.length < dst.length) :
    ∃ dst', copyText dst (text ++ rest) text.length = .ok dst' ∧ cstr dst' = text := by
  have htext : cstr ((text ++ rest).take text.length) = text := by
    rw [List.take_left, cstr_of_notMem h0]
  have hstore := @storeAll_strlcpyIrc (text ++ rest) dst text.length (by rwa [htext])
  have hblit : blit dst 0 (text ++ [0]) = text ++ 0 :: dst.drop (text.length + 1) := by
    rw [blit, List.take_zero, List.nil_append, Nat.zero_add, List.length_append,
      List.length_singleton, List.append_assoc]
    rfl
  rw [htext, hblit] at hstore
  refine ⟨text ++ 0 :: dst.drop (text.length + 1), ?_, cstr_terminated h0 _⟩
  rw [copyText, hstore]
  exact putByte_middle _ _ _ _

/-! ## The decision -/

/-- The file is blocked exactly if this is so, and then the arrays hold the extension and
the name, or the start of it. -/
inductive Decided (p : Prop) (name : List UInt8) : DccSend → Prop
  | passed : ¬ p → Decided p name .passed
  | blocked {tmpext tmpfn : List UInt8} : p → HasExtension name (cstr tmpext) →
      cstr tmpfn = name.take 127 → Decided p name (.blocked tmpext tmpfn)

section Decide

variable {client : Nat → DccClient} {source target : Nat} {name tmpext tmpfn : List UInt8}

theorem hasExtension_unique {ext ext' : List UInt8} (h : HasExtension name ext)
    (h' : HasExtension name ext') : ext = ext' := by
  obtain ⟨pre, -, rfl, hext⟩ := h
  obtain ⟨pre', -, heq, hext'⟩ := h'
  have hrev := congrArg List.reverse heq
  simp only [List.reverse_append, List.reverse_cons, List.append_assoc, List.cons_append,
    List.nil_append] at hrev
  have hcut := cut_unique (fun h => hext (List.mem_reverse.mp h))
    (fun h => hext' (List.mem_reverse.mp h)) hrev
  exact List.reverse_injective hcut.1

theorem blockedName_iff {ext : List UInt8} (h : HasExtension name ext) :
    BlockedName name ↔ ext.map asciiLower ∈ blockedExtensions := by
  constructor
  · rintro ⟨ext', h', hmem⟩
    rwa [hasExtension_unique h h']
  · exact fun hmem => ⟨ext, h, hmem⟩

/-- There is a last dot, or none. -/
theorem lastDot_or (text : List UInt8) :
    (∃ pre ext, text = pre ++ 0x2e :: ext ∧ 0x2e ∉ ext) ∨ 0x2e ∉ text := by
  by_cases hmem : 0x2e ∈ text
  · obtain ⟨as, bs, hrev, has⟩ := List.eq_append_cons_of_mem (List.mem_reverse.mpr hmem)
    refine .inl ⟨bs.reverse, as.reverse, ?_, fun h => has (List.mem_reverse.mp h)⟩
    have htext := congrArg List.reverse hrev
    simpa using htext
  · exact .inr hmem

theorem drop_dot {pre ext : List UInt8} (hname : name = pre ++ 0x2e :: ext) (rest : List UInt8) :
    (name ++ rest).drop ((pre.length : Int) + 1).toNat = ext ++ rest := by
  have hplace : ((pre.length : Int) + 1).toNat = pre.length + 1 + 0 := by omega
  rw [hplace, hname, List.append_assoc, List.cons_append, drop_middle, List.drop_zero]

/-- What is done when the extension is in a table. -/
theorem blockDcc_spec {pre ext rest : List UInt8} (hname : name = pre ++ 0x2e :: ext)
    (hname0 : 0 ∉ name) (hext : HasExtension name ext) (hshort : ext.length ≤ 4)
    (hblocked : ext.map asciiLower ∈ blockedExtensions)
    (htmpext : tmpext.length = 8) (htmpfn : tmpfn.length = 128) :
    ∃ r, blockDcc client source target (name ++ rest) name.length ((pre.length : Int) + 1)
        ext.length tmpext tmpfn = .ok r ∧
      Decided (source ∉ (client target).dccallow ∧ BlockedName name) name r := by
  have hallow : allowDcc client target source = true ↔ source ∈ (client target).dccallow := by
    simp [allowDcc]
  rw [blockDcc]
  by_cases hmem : source ∈ (client target).dccallow
  · rw [if_pos (hallow.mpr hmem)]
    exact ⟨_, rfl, .passed fun h => h.1 hmem⟩
  · rw [if_neg (mt hallow.mp hmem)]
    have hext0 : 0 ∉ ext := fun h => hname0 (by rw [hname]; simp [h])
    have hfn0 : 0 ∉ name.take 127 := fun h => hname0 (List.mem_of_mem_take h)
    have hdrop := drop_dot hname rest
    have hlen : (if 127 < name.length then 127 else name.length) = (name.take 127).length := by
      rw [List.length_take]
      split
      · omega
      · omega
    have hfn : name ++ rest = name.take 127 ++ (name.drop 127 ++ rest) := by
      rw [← List.append_assoc, List.take_append_drop]
    obtain ⟨tmpext', hcopy, hcstr⟩ := @copyText_spec _ rest tmpext hext0 (by omega)
    obtain ⟨tmpfn', hcopy', hcstr'⟩ := @copyText_spec _ (name.drop 127 ++ rest)
      tmpfn hfn0 (by rw [List.length_take]; omega)
    refine ⟨.blocked tmpext' tmpfn', ?_, .blocked ⟨hmem, ⟨ext, hext, hblocked⟩⟩ ?_ hcstr'⟩
    · rw [← hfn] at hcopy'
      rw [hdrop, hlen, Int.toNat_natCast]
      simp only [hcopy, hcopy', bind, Except.bind]
    · rwa [hcstr]

theorem not_blockedName_nil : ¬ BlockedName [] := by
  rintro ⟨ext, ⟨pre, -, heq, -⟩, -⟩
  exact List.append_ne_nil_of_right_ne_nil pre (List.cons_ne_nil _ _) heq.symm

theorem not_blockedName {c : UInt8} {text : List UInt8} (h : 0x2e ∉ text) :
    ¬ BlockedName (c :: text) := by
  rintro ⟨ext, ⟨pre, hpre, heq, -⟩, -⟩
  cases pre with
  | nil => exact hpre rfl
  | cons d pre =>
      refine h ?_
      rw [(List.cons.inj heq).2]
      simp

/-- From the scan on, when there is a dot. -/
theorem scannedName_dot {pre ext after : List UInt8} {t : UInt8}
    (hname : name = pre ++ 0x2e :: ext) (hname0 : 0 ∉ name) (hpre : pre ≠ [])
    (hext : 0x2e ∉ ext) (ht : t ≠ 0x2e) (htmpext : tmpext.length = 8)
    (htmpfn : tmpfn.length = 128) :
    ∃ r, scannedName client source target (name ++ t :: after) name.length tmpext tmpfn = .ok r ∧
      Decided (source ∉ (client target).dccallow ∧ BlockedName name) name r := by
  have hhas : HasExtension name ext := ⟨pre, hpre, hname, hext⟩
  have hfuel : name.length + 1 = pre.length + 1 + (ext ++ [t]).length := by
    simp only [hname, List.length_append, List.length_cons, List.length_nil]
    omega
  have hmem : name ++ t :: after = pre ++ 0x2e :: (ext ++ t :: after) := by
    rw [hname, List.append_assoc, List.cons_append]
  have hscan := @scanExt_dot pre after ext t hpre hext ht pre.length
  rw [← hmem, ← hname, ← hfuel] at hscan
  rw [scannedName, hscan]
  simp only [bind, Except.bind]
  cases hexploits : exploits ext.length with
  | none =>
      refine ⟨_, rfl, .passed fun h => exploits_none hexploits ?_⟩
      exact (blockedName_iff hhas).mp h.2
  | some table =>
      have htable : IsTable ext table.1 table.2 := exploits_some hexploits
      obtain ⟨found, hfound, hiff⟩ := htable.found (t :: after)
      rw [← drop_dot hname] at hfound
      simp only [hfound]
      by_cases hblocked : ext.map asciiLower ∈ blockedExtensions
      · rw [if_pos (hiff.mpr hblocked)]
        exact blockDcc_spec hname hname0 hhas htable.short hblocked htmpext htmpfn
      · rw [if_neg (mt hiff.mp hblocked)]
        exact ⟨_, rfl, .passed fun h => hblocked ((blockedName_iff hhas).mp h.2)⟩

/-- From the name on, and the byte behind it. -/
theorem checkFilename_spec {t : UInt8} {after : List UInt8} (h0 : 0 ∉ name)
    (hspace : 0x20 ∉ name) (ht : t = 0x20 ∨ t = 0) (hempty : name = [] → t = 0)
    (htmpext : tmpext.length = 8) (htmpfn : tmpfn.length = 128) :
    ∃ r, checkFilename client source target (name ++ t :: after) tmpext tmpfn = .ok r ∧
      Decided (source ∉ (client target).dccallow ∧ BlockedName name) name r := by
  have hdot : t ≠ 0x2e := by
    rcases ht with rfl | rfl
    · decide
    · decide
  have hlen : ((name ++ t :: after).takeWhile fun c => c ≠ 0x20 ∧ c ≠ 0) = name := by
    refine takeWhile_stop (fun c hc => decide_eq_true ⟨?_, ?_⟩) (decide_eq_false fun h => ?_)
    · exact fun h => hspace (h ▸ hc)
    · exact fun h => h0 (h ▸ hc)
    · exact ht.elim h.1 h.2
  have hstop := nameByte_middle name after t
  rw [checkFilename, hlen]
  cases name with
  | nil =>
      rw [List.nil_append, nameByte_head, hempty rfl]
      exact ⟨_, rfl, .passed fun h => not_blockedName_nil h.2⟩
  | cons c text =>
      have hc : c ≠ 0 := fun h => h0 (h ▸ List.mem_cons_self)
      rw [List.cons_append, nameByte_head, ← List.cons_append]
      simp only [bind, Except.bind, if_neg hc, hstop]
      rcases lastDot_or text with ⟨pre, ext, rfl, hext⟩ | hnone
      · exact @scannedName_dot _ _ _ _ _ _ (c :: pre) _ _ _ rfl h0 (List.cons_ne_nil _ _) hext hdot
          htmpext htmpfn
      · have hfuel : (c :: text).length + 1 = 0 + 1 + (text ++ [t]).length := by
          simp only [List.length_append, List.length_cons, List.length_nil]
          omega
        have hscan := @scanExt_none after c t text hnone hdot 0
        rw [← hfuel, ← List.cons_append] at hscan
        rw [scannedName, hscan]
        exact ⟨_, rfl, .passed fun h => not_blockedName hnone h.2⟩

end Decide

theorem Decided.value_iff {p : Prop} {name : List UInt8} {r : DccSend} (h : Decided p name r) :
    (r.value = 1 ↔ p) ∧ (r.value = 0 ↔ ¬ p) := by
  cases h with
  | passed hp => exact ⟨iff_of_false (by decide) hp, iff_of_true rfl hp⟩
  | blocked hp _ _ => exact ⟨iff_of_true rfl hp, iff_of_false Int.one_ne_zero (not_not.mpr hp)⟩

/-- Where the name starts, and what stands behind it. -/
theorem DccMessage.filename {msg name : List UInt8} (h : DccMessage msg name) :
    ∃ t after, (t = 0x20 ∨ t = 0) ∧ (name = [] → t = 0) ∧
      msg.drop (8 + ((msg.drop 8).takeWhile fun c => c = 0x20).length) = name ++ t :: after := by
  obtain ⟨k, rest, behind, rfl, hrest⟩ := h.text
  obtain ⟨t, after, hafter, ht, hempty⟩ : ∃ t after, name ++ rest ++ 0 :: behind =
      name ++ t :: after ∧ (t = 0x20 ∨ t = 0) ∧ (name = [] → t = 0) := by
    rcases hrest with rfl | ⟨hne, hhead⟩
    · exact ⟨0, behind, by rw [List.append_nil], .inr rfl, fun _ => rfl⟩
    · obtain ⟨rest', rfl⟩ := List.head?_eq_some_iff.mp hhead
      refine ⟨0x20, rest' ++ 0 :: behind, ?_, .inl rfl, fun h => absurd h hne⟩
      rw [List.append_assoc, List.cons_append]
  have hdrop : (dccSendText ++ (List.replicate k 0x20 ++ (name ++ rest ++ 0 :: behind))).drop 8 =
      List.replicate k 0x20 ++ (name ++ t :: after) := by
    rw [hafter]
    exact List.drop_left' rfl
  obtain ⟨d, tail, hcons, hd⟩ : ∃ d tail, name ++ t :: after = d :: tail ∧ d ≠ 0x20 := by
    cases name with
    | nil => exact ⟨t, after, rfl, by rw [hempty rfl]; decide⟩
    | cons c text => exact ⟨c, _, rfl, fun hc => h.noSpace (hc ▸ List.mem_cons_self)⟩
  have hblanks : (List.replicate k 0x20 ++ (name ++ t :: after)).takeWhile (fun c => c = 0x20) =
      List.replicate k (0x20 : UInt8) := by
    rw [hcons]
    exact takeWhile_stop (fun c hc => decide_eq_true (List.eq_of_mem_replicate hc))
      (decide_eq_false hd)
  refine ⟨t, after, ht, hempty, ?_⟩
  rw [hdrop, hblanks, ← List.drop_drop, hdrop, List.length_replicate]
  exact List.drop_left' (List.length_replicate ..)

/-- `check_dccsend` returns on every message, without a read in front of the name or a
write outside the arrays: `1` exactly if the file has one of the extensions and the two
clients are such that it matters, and the arrays hold the extension and the name then. -/
theorem checkDccsend_spec {msg name tmpext tmpfn : List UInt8} (h : DccMessage msg name)
    (htmpext : tmpext.length = 8) (htmpfn : tmpfn.length = 128) (client : Nat → DccClient)
    (source target : Nat) :
    ∃ r, checkDccsend client source target msg tmpext tmpfn = .ok r ∧
      (r.value = 1 ↔ Filtered client source target ∧ BlockedName name) ∧
      (r.value = 0 ↔ ¬ (Filtered client source target ∧ BlockedName name)) ∧
      ∀ tmpext' tmpfn', r = .blocked tmpext' tmpfn' →
        HasExtension name (cstr tmpext') ∧ cstr tmpfn' = name.take 127 := by
  suffices hdecided : ∃ r, checkDccsend client source target msg tmpext tmpfn = .ok r ∧
      Decided (Filtered client source target ∧ BlockedName name) name r by
    obtain ⟨r, hrun, hr⟩ := hdecided
    refine ⟨r, hrun, hr.value_iff.1, hr.value_iff.2, ?_⟩
    rintro tmpext' tmpfn' rfl
    cases hr with
    | blocked _ hext hfn => exact ⟨hext, hfn⟩
  rw [checkDccsend]
  split
  case isTrue hguard =>
    refine ⟨_, rfl, .passed fun hp => ?_⟩
    have hf := hp.1
    simp [hf.other, hf.person, hf.notOper, hf.my, hf.notAll] at hguard
  case isFalse hguard =>
    simp only [Bool.or_eq_true, decide_eq_true_eq, Bool.not_eq_true', not_or, Bool.not_eq_true,
      Bool.not_eq_false] at hguard
    obtain ⟨⟨⟨⟨hother, hperson⟩, hoper⟩, hmy⟩, hall⟩ := hguard
    obtain ⟨t, after, ht, hempty, hname⟩ := h.filename
    obtain ⟨r, hrun, hr⟩ := @checkFilename_spec client source target _ _ _ _ after h.noNul
      h.noSpace ht hempty htmpext htmpfn
    have hiff : Filtered client source target ∧ BlockedName name ↔
        source ∉ (client target).dccallow ∧ BlockedName name :=
      and_congr_left' ⟨Filtered.notAllowed, fun hnot => ⟨hother, hperson, hoper, hmy, hall, hnot⟩⟩
    refine ⟨r, ?_, ?_⟩
    · simp only [hname]
      exact hrun
    · rwa [hiff]

/-- `DCC SEND  a.b.Exe 1` -/
def exeMsg : List UInt8 :=
  dccSendText ++ [0x20, 0x20, 0x61, 0x2e, 0x62, 0x2e, 0x45, 0x78, 0x65, 0x20, 0x31, 0]

/-- Two local users, the first of whom has allowed nothing. -/
def twoUsers (_ : Nat) : DccClient := ⟨true, false, true, false, []⟩

/-- The theorem at this message, which is blocked. -/
theorem checkDccsend_exe :
    ∃ r, checkDccsend twoUsers 1 0 exeMsg (List.replicate 8 0) (List.replicate 128 0) = .ok r ∧
      r.value = 1 := by
  have hmsg : DccMessage exeMsg [0x61, 0x2e, 0x62, 0x2e, 0x45, 0x78, 0x65] := by
    refine ⟨by decide, by decide, 2, [0x20, 0x31], [], rfl, .inr ⟨by decide, rfl⟩⟩
  have hname : BlockedName [0x61, 0x2e, 0x62, 0x2e, 0x45, 0x78, 0x65] := by
    refine ⟨[0x45, 0x78, 0x65], ⟨[0x61, 0x2e, 0x62], by decide, rfl, by decide⟩, by decide⟩
  obtain ⟨r, hrun, hvalue, -⟩ :=
    checkDccsend_spec hmsg (List.length_replicate ..) (List.length_replicate ..) twoUsers 1 0
  exact ⟨r, hrun, hvalue.mpr ⟨⟨by decide, rfl, rfl, rfl, rfl, by decide⟩, hname⟩⟩

end TrIrcd
