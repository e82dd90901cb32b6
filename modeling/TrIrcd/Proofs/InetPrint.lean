import TrIrcd.Proofs.FormatBounds
import TrIrcd.Proofs.InetGrammar

/-!
# What `inet_ntop6` prints

The run that is written as a gap stands among the words of the address, with
zeros in it and nothing else (`bestRun_run`). What is printed is then the words in
front of it, two colons and the words behind it, or all eight words, or the last
four bytes as a dotted quad behind six words that are zero (`inetNtop6_text`).
-/

namespace TrIrcd

open TrIrcd.Lib
open TrIrcd.V6Scan (joinGroups joinGroups_cons_cons)

/-! ## The words of an address -/

/-- The two bytes of a word. -/
def wordBytes (w : Nat) : List UInt8 := [UInt8.ofNat (w >>> 8), UInt8.ofNat w]

theorem word_lt (b c : UInt8) : b.toNat <<< 8 ||| c.toNat < 0x10000 := by
  have hb : b.toNat <<< 8 < 2 ^ 16 := by
    rw [Nat.shiftLeft_eq]
    have := b.toNat_lt
    omega
  exact Nat.or_lt_two_pow hb (Nat.lt_trans c.toNat_lt (by decide))

theorem wordBytes_word (b c : UInt8) : wordBytes (b.toNat <<< 8 ||| c.toNat) = [b, c] := by
  have hb := b.toNat_lt
  have hc := c.toNat_lt
  have hsum : b.toNat <<< 8 ||| c.toNat = b.toNat * 256 + c.toNat := by
    rw [← Nat.shiftLeft_add_eq_or_of_lt hc, Nat.shiftLeft_eq]
  have hhigh : (b.toNat * 256 + c.toNat) >>> 8 = b.toNat := by
    rw [Nat.shiftRight_eq_div_pow]
    omega
  have hlow : UInt8.ofNat (b.toNat * 256 + c.toNat) = c := by
    rw [← UInt8.toNat_inj, UInt8.toNat_ofNat']
    omega
  rw [wordBytes, hsum, hhigh, hlow, UInt8.ofNat_toNat]

namespace In6Addr

theorem words_bytes (src : In6Addr) : src.words.flatMap wordBytes = src.bytes := by
  obtain ⟨bytes, hlen⟩ := src
  match bytes, hlen with
  | [b₀, b₁, b₂, b₃, b₄, b₅, b₆, b₇, b₈, b₉, b₁₀, b₁₁, b₁₂, b₁₃, b₁₄, b₁₅], _ =>
      simp [words, List.range_succ, wordBytes_word]

theorem words_length (src : In6Addr) : src.words.length = 8 := by
  rw [words, List.length_map, List.length_range]

theorem words_lt (src : In6Addr) : ∀ w ∈ src.words, w < 0x10000 := by
  intro w hw
  obtain ⟨i, _, rfl⟩ := List.mem_map.mp hw
  exact word_lt _ _

theorem last_bytes (src : In6Addr) : src.last.bytes = src.bytes.drop 12 := by
  obtain ⟨bytes, hlen⟩ := src
  match bytes, hlen with
  | [b₀, b₁, b₂, b₃, b₄, b₅, b₆, b₇, b₈, b₉, b₁₀, b₁₁, b₁₂, b₁₃, b₁₄, b₁₅], _ => rfl

end In6Addr

/-! ## Digits -/

theorem isXDigit_digitChar : ∀ d < 16, isXDigit (digitChar d) = true := by decide

theorem hexDigit_digitChar : ∀ d < 16, hexDigit (digitChar d) = d := by decide

theorem groupValue_digits (fuel : Nat) : ∀ {w : Nat}, w < 16 ^ (fuel + 1) →
    groupValue ((loopDigits 16 (fuel + 1) w).map digitChar) = w := by
  have hlow (w : Nat) : hexDigit (digitChar (w % 16)) = w % 16 :=
    hexDigit_digitChar _ (Nat.mod_lt w (by decide))
  induction fuel with
  | zero =>
      intro w hw
      have hdiv : w / 16 = 0 := Nat.div_eq_of_lt hw
      rw [loopDigits, if_pos hdiv]
      show 0 <<< 4 ||| hexDigit (digitChar (w % 16)) = w
      rw [hlow, Nat.zero_shiftLeft, Nat.zero_or]
      exact Nat.mod_eq_of_lt hw
  | succ fuel ih =>
      intro w hw
      rw [loopDigits]
      split
      · next hdiv =>
          show 0 <<< 4 ||| hexDigit (digitChar (w % 16)) = w
          rw [hlow, Nat.zero_shiftLeft, Nat.zero_or]
          omega
      · have hdiv : w / 16 < 16 ^ (fuel + 1) :=
          Nat.div_lt_of_lt_mul (by rwa [Nat.pow_succ, Nat.mul_comm] at hw)
        have hmod : w % 16 < 2 ^ 4 := Nat.mod_lt w (by decide)
        rw [List.map_append, List.map_singleton, groupValue_append, ih hdiv, hlow,
          ← Nat.shiftLeft_add_eq_or_of_lt hmod, Nat.shiftLeft_eq]
        omega

section Hex

variable {w : Nat}

theorem groupValue_hexText (hw : w < 0x10000) : groupValue (hexText w) = w :=
  groupValue_digits 63 (Nat.lt_trans hw (by decide))

theorem isGroup_hexText (hw : w < 0x10000) : IsGroup (hexText w) where
  ne_nil h := by
    have hne : loopDigits 16 64 w ≠ [] := by
      rw [loopDigits]
      split
      · exact List.cons_ne_nil _ _
      · exact List.append_ne_nil_of_right_ne_nil _ (List.cons_ne_nil _ _)
    exact hne (List.map_eq_nil_iff.mp h)
  length := by
    rw [hexText, List.length_map]
    exact loopDigits_length_le 16 64 (k := 3) hw
  digits c hc := by
    obtain ⟨d, hd, rfl⟩ := List.mem_map.mp hc
    exact isXDigit_digitChar d (loopDigits_lt (by decide) 64 hd)

theorem groupBytes_hexText (hw : w < 0x10000) : groupBytes (hexText w) = wordBytes w := by
  rw [groupBytes, groupValue_hexText hw, wordBytes]

end Hex

/-- The words, as they are printed. -/
def hexGroups (ws : List Nat) : List (List UInt8) := ws.map hexText

theorem isGroup_hexGroups {ws : List Nat} (hws : ∀ w ∈ ws, w < 0x10000) :
    ∀ g ∈ hexGroups ws, IsGroup g := by
  intro g hg
  obtain ⟨w, hw, rfl⟩ := List.mem_map.mp hg
  exact isGroup_hexText (hws w hw)

theorem groupBytes_hexGroups {ws : List Nat} (hws : ∀ w ∈ ws, w < 0x10000) :
    (hexGroups ws).flatMap groupBytes = ws.flatMap wordBytes := by
  induction ws with
  | nil => rfl
  | cons w ws ih =>
      rw [hexGroups, List.map_cons, List.flatMap_cons, List.flatMap_cons,
        groupBytes_hexText (hws w (List.mem_cons_self ..)), ← hexGroups,
        ih fun w' hw => hws w' (List.mem_cons_of_mem w hw)]

/-! ## The run of zeros -/

/-- The run stands there, with zeros in it. -/
def IsRun (ws : List Nat) (r : ZeroRun) : Prop :=
  ∃ pre post, ws = pre ++ List.replicate r.len 0 ++ post ∧ pre.length = r.base

/-- The run stands at the end. -/
def EndsRun (ws : List Nat) (r : ZeroRun) : Prop :=
  ∃ pre, ws = pre ++ List.replicate r.len 0 ∧ pre.length = r.base

theorem EndsRun.isRun {ws : List Nat} {r : ZeroRun} (h : EndsRun ws r) : IsRun ws r := by
  obtain ⟨pre, hws, hlen⟩ := h
  exact ⟨pre, [], by rw [List.append_nil]; exact hws, hlen⟩

theorem IsRun.append {ws : List Nat} {r : ZeroRun} (h : IsRun ws r) (w : Nat) :
    IsRun (ws ++ [w]) r := by
  obtain ⟨pre, post, rfl, hlen⟩ := h
  exact ⟨pre, post ++ [w], List.append_assoc .., hlen⟩

theorem betterRun_run {ws : List Nat} {best : Option ZeroRun} {cur : ZeroRun}
    (hbest : ∀ r ∈ best, IsRun ws r) (hcur : IsRun ws cur) : ∀ r ∈ betterRun best cur, IsRun ws r := by
  intro r hr
  cases best with
  | none =>
      cases hr
      exact hcur
  | some b =>
      rw [betterRun] at hr
      split at hr
      · cases hr
        exact hcur
      · exact hbest r hr

theorem runLoop_zero (words : List Nat) (i : Nat) (best cur : Option ZeroRun) :
    runLoop (0 :: words) i best cur =
      runLoop words (i + 1) best (some (cur.elim ⟨i, 1⟩ fun cur => ⟨cur.base, cur.len + 1⟩)) := by
  cases cur with
  | none => rfl
  | some cur => rfl

theorem runLoop_word {w : Nat} (hw : w ≠ 0) (words : List Nat) (i : Nat)
    (best cur : Option ZeroRun) :
    runLoop (w :: words) i best cur = runLoop words (i + 1) (cur.elim best (betterRun best)) none := by
  cases cur with
  | none =>
      rw [runLoop, if_neg hw]
      rfl
  | some cur =>
      rw [runLoop, if_neg hw]
      rfl

theorem runLoop_run (words : List Nat) : ∀ {ws : List Nat} {best cur : Option ZeroRun},
    (∀ r ∈ best, IsRun ws r) → (∀ r ∈ cur, EndsRun ws r) →
    (∀ r ∈ (runLoop words ws.length best cur).1, IsRun (ws ++ words) r) ∧
      ∀ r ∈ (runLoop words ws.length best cur).2, EndsRun (ws ++ words) r := by
  induction words with
  | nil =>
      intro ws best cur hbest hcur
      rw [runLoop, List.append_nil]
      exact ⟨hbest, hcur⟩
  | cons w words ih =>
      intro ws best cur hbest hcur
      have hlen : (ws ++ [w]).length = ws.length + 1 := List.length_append
      have hall : ws ++ w :: words = ws ++ [w] ++ words := by
        rw [List.append_assoc]
        rfl
      have hbest' : ∀ r ∈ best, IsRun (ws ++ [w]) r := fun r hr => (hbest r hr).append w
      rw [hall]
      by_cases hw : w = 0
      · subst hw
        rw [runLoop_zero, ← hlen]
        refine ih hbest' ?_
        rintro r ⟨⟩
        cases cur with
        | none => exact ⟨ws, rfl, rfl⟩
        | some c =>
            obtain ⟨pre, rfl, hbase⟩ := hcur c rfl
            refine ⟨pre, ?_, hbase⟩
            rw [List.append_assoc, Option.elim_some, List.replicate_succ']
      · rw [runLoop_word hw, ← hlen]
        refine ih ?_ fun _ h => nomatch h
        cases cur with
        | none => exact hbest'
        | some c => exact betterRun_run hbest' ((hcur c rfl).isRun.append w)

theorem bestRun_run {ws : List Nat} {r : ZeroRun} (h : bestRun ws = some r) :
    IsRun ws r ∧ 2 ≤ r.len := by
  have hnone : ∀ P : ZeroRun → Prop, ∀ r ∈ (none : Option ZeroRun), P r := fun _ _ h => nomatch h
  obtain ⟨hbest, hcur⟩ := runLoop_run ws (hnone (IsRun [])) (hnone (EndsRun []))
  rw [List.length_nil, List.nil_append] at hbest hcur
  rw [bestRun] at h
  generalize runLoop ws 0 none none = bc at hbest hcur h
  obtain ⟨best, cur⟩ := bc
  obtain ⟨hrun, hlen⟩ := Option.filter_eq_some_iff.mp h
  refine ⟨?_, of_decide_eq_true hlen⟩
  cases cur with
  | none => exact hbest r hrun
  | some c => exact betterRun_run hbest (hcur c rfl).isRun r hrun

/-! ## The text -/

/-- A word, with the colon in front of it. -/
def colonHex (ws : List Nat) : List UInt8 := ws.flatMap fun w => 0x3a :: hexText w

theorem joinGroups_hexGroups (w : Nat) (ws : List Nat) :
    joinGroups (hexGroups (w :: ws)) = hexText w ++ colonHex ws := by
  induction ws generalizing w with
  | nil => exact (joinGroups_singleton _).trans (List.append_nil _).symm
  | cons w' ws ih =>
      have hcons : joinGroups (hexGroups (w :: w' :: ws)) =
          hexText w ++ 0x3a :: joinGroups (hexGroups (w' :: ws)) := joinGroups_cons_cons _ _ _
      rw [hcons, ih, colonHex, colonHex, List.flatMap_cons]
      rfl

/-- The word is in the run. -/
def inRun (best : Option ZeroRun) (i : Nat) : Bool :=
  best.any fun best => best.base ≤ i ∧ i < best.base + best.len

/-- The last two words are printed as a dotted quad. -/
def quadAt (src : In6Addr) (best : Option ZeroRun) : Bool :=
  best.any fun best => best.base = 0 ∧ (best.len = 6 ∨ best.len = 5 ∧ src.words.getD 5 0 = 0xffff)

section Loop

variable {src : In6Addr} {best : Option ZeroRun} {i : Nat} {tmp : List UInt8}

theorem ntopLoop_word {w : Nat} {ws : List Nat} (hrun : inRun best i = false)
    (hquad : ¬ (i = 6 ∧ quadAt src best = true)) :
    ntopLoop src best (w :: ws) i tmp =
      ntopLoop src best ws (i + 1) ((if i ≠ 0 then tmp ++ [0x3a] else tmp) ++ hexText w) := by
  rw [ntopLoop, ← inRun, hrun, if_neg Bool.false_ne_true]
  exact if_neg hquad

theorem ntopLoop_words {rest : List Nat} (ws : List Nat) : ∀ {i : Nat} {tmp : List UInt8}, i ≠ 0 →
    (∀ j, i ≤ j → j < i + ws.length → inRun best j = false ∧ ¬ (j = 6 ∧ quadAt src best = true)) →
    ntopLoop src best (ws ++ rest) i tmp =
      ntopLoop src best rest (i + ws.length) (tmp ++ colonHex ws) := by
  induction ws with
  | nil => exact fun _ _ => by rw [List.nil_append, colonHex, List.flatMap_nil, List.append_nil]; rfl
  | cons w ws ih =>
      intro i tmp hi h
      rw [List.length_cons] at h
      obtain ⟨hrun, hquad⟩ := h i (Nat.le_refl i) (by omega)
      have hstart : i + 1 + ws.length = i + (w :: ws).length := by
        rw [List.length_cons]
        omega
      rw [List.cons_append, ntopLoop_word hrun hquad, if_pos hi,
        ih (Nat.succ_ne_zero i) fun j hj hlt => h j (by omega) (by omega), hstart]
      simp only [colonHex, List.flatMap_cons, List.append_assoc, List.cons_append, List.nil_append]

theorem ntopLoop_inside {rest : List Nat} {r : ZeroRun} (n : Nat) : ∀ {i : Nat}, r.base < i →
    i + n ≤ r.base + r.len →
    ntopLoop src (some r) (List.replicate n 0 ++ rest) i tmp = ntopLoop src (some r) rest (i + n) tmp := by
  induction n with
  | zero => exact fun _ _ => rfl
  | succ n ih =>
      intro i hi hle
      have hin : inRun (some r) i = true := decide_eq_true ⟨Nat.le_of_lt hi, by omega⟩
      have hstart : (some r).any (fun best => decide (i = best.base)) = false :=
        decide_eq_false (Nat.ne_of_gt hi)
      rw [List.replicate_succ, List.cons_append, ntopLoop, ← inRun, if_pos hin, hstart,
        if_neg Bool.false_ne_true, ih (by omega) (by omega)]
      congr 1
      omega

/-- Of the run it is the colon in front of it that is printed. -/
theorem ntopLoop_run {rest : List Nat} {r : ZeroRun} (hlen : 1 ≤ r.len) :
    ntopLoop src (some r) (List.replicate r.len 0 ++ rest) r.base tmp =
      ntopLoop src (some r) rest (r.base + r.len) (tmp ++ [0x3a]) := by
  obtain ⟨n, hn⟩ : ∃ n, r.len = n + 1 := Nat.exists_eq_add_of_le' hlen
  have hin : inRun (some r) r.base = true := decide_eq_true ⟨Nat.le_refl _, by omega⟩
  have hstart : (some r).any (fun best => decide (r.base = best.base)) = true := decide_eq_true rfl
  rw [hn, List.replicate_succ, List.cons_append, ntopLoop, ← inRun, if_pos hin, hstart,
    if_pos rfl, ntopLoop_inside n (Nat.lt_succ_self _) (by omega)]
  congr 1
  omega

theorem ntopLoop_front {rest : List Nat} (ws : List Nat)
    (h : ∀ j < ws.length, inRun best j = false ∧ ¬ (j = 6 ∧ quadAt src best = true)) :
    ntopLoop src best (ws ++ rest) 0 [] =
      ntopLoop src best rest ws.length (joinGroups (hexGroups ws)) := by
  cases ws with
  | nil => rfl
  | cons w ws =>
      obtain ⟨hrun, hquad⟩ := h 0 (Nat.succ_pos ws.length)
      rw [List.length_cons] at h
      have hlen : 0 + 1 + ws.length = (w :: ws).length := by
        rw [List.length_cons]
        omega
      rw [List.cons_append, ntopLoop_word hrun hquad, if_neg (fun h => h rfl), List.nil_append,
        ntopLoop_words ws (Nat.succ_ne_zero 0) fun j _ hlt => h j (by omega), hlen,
        joinGroups_hexGroups]

end Loop

/-- The texts that are printed for an address. -/
inductive Printed (src : In6Addr) : List UInt8 → Prop
  | full : Printed src (joinGroups (hexGroups src.words))
  | short {pre post : List Nat} {n : Nat} (hn : 2 ≤ n)
      (hwords : src.words = pre ++ List.replicate n 0 ++ post) :
      Printed src (joinGroups (hexGroups pre) ++ 0x3a :: 0x3a :: joinGroups (hexGroups post))
  | quad {post : List Nat} (hwords : src.words = List.replicate 6 0 ++ post) :
      Printed src (0x3a :: 0x3a :: inetntoaBytes src.last)

/-- Words behind the run, up to the end. -/
theorem ntopLoop_behind {src : In6Addr} {r : ZeroRun} {post : List Nat} {tmp : List UInt8}
    (hlen : 1 ≤ r.len) (hquad : quadAt src (some r) = false) :
    (ntopLoop src (some r) post (r.base + r.len) (tmp ++ [0x3a])) =
      some (tmp ++ 0x3a :: colonHex post) := by
  have hplain : ∀ j, r.base + r.len ≤ j → j < r.base + r.len + post.length →
      inRun (some r) j = false ∧ ¬ (j = 6 ∧ quadAt src (some r) = true) := by
    intro j hj _
    refine ⟨decide_eq_false fun hin => by omega, fun h => ?_⟩
    cases hquad.symm.trans h.2
  have h := @ntopLoop_words _ _ [] post _ (tmp ++ [0x3a]) (by omega) hplain
  rw [List.append_nil, List.append_assoc] at h
  exact h

theorem v4Mapped_of_words {src : In6Addr} {post : List Nat}
    (h : src.words = List.replicate 5 0 ++ 0xffff :: post) : src.v4Mapped = true := by
  refine decide_eq_true ?_
  have hfront : (List.replicate 5 0 ++ [0xffff]).flatMap wordBytes =
      List.replicate 10 0 ++ [0xff, 0xff] := by decide
  rw [← src.words_bytes, h, List.append_cons, List.flatMap_append, hfront]
  rfl

/-- What is put into the buffer before the colon for a run at the end. -/
theorem ntopLoop_run_eq {src : In6Addr} {r : ZeroRun} {pre post : List Nat} (hlen : 1 ≤ r.len)
    (hwords : src.words = pre ++ List.replicate r.len 0 ++ post) (hbase : pre.length = r.base)
    (hquad : quadAt src (some r) = false) :
    ntopLoop src (some r) src.words 0 [] =
      some (joinGroups (hexGroups pre) ++ 0x3a :: colonHex post) := by
  have hfront : ∀ j < pre.length,
      inRun (some r) j = false ∧ ¬ (j = 6 ∧ quadAt src (some r) = true) := by
    intro j hj
    refine ⟨decide_eq_false fun hin => by omega, fun h => ?_⟩
    cases hquad.symm.trans h.2
  rw [hwords, List.append_assoc, ntopLoop_front pre hfront, hbase, ntopLoop_run hlen,
    ntopLoop_behind hlen hquad]

/-- Six words that are zero, and the quad. -/
theorem ntopLoop_quad_eq {src : In6Addr} {r : ZeroRun} {post : List Nat} (hbase : r.base = 0)
    (hlen : r.len = 6) (hwords : src.words = List.replicate 6 0 ++ post) :
    ntopLoop src (some r) src.words 0 [] = some (0x3a :: 0x3a :: inetntoaBytes src.last) := by
  obtain ⟨base, len⟩ := r
  cases hbase
  cases hlen
  have hcount : post.length = 2 := by
    have h := congrArg List.length hwords
    rw [src.words_length, List.length_append, List.length_replicate] at h
    omega
  rw [hwords]
  match post, hcount with
  | [w₆, w₇], _ => rfl

theorem inetNtop6_printed {src : In6Addr} {size : Nat} {text : List UInt8}
    (hmapped : src.v4Mapped = false) (h : inetNtop6 src size = some text) :
    Printed src text ∧ text.length + 1 ≤ size := by
  obtain ⟨tmp, hloop, hsize⟩ := Option.bind_eq_some_iff.mp h
  generalize htmp : (if (bestRun src.words).any (fun best => decide (best.base + best.len = 8)) =
    true then tmp ++ [0x3a] else tmp) = tmp' at hsize
  simp only at hsize
  split at hsize
  · cases hsize
  · next hroom =>
      cases hsize
      refine ⟨?_, Nat.not_lt.mp hroom⟩
      rw [← htmp]
      cases hbest : bestRun src.words with
      | none =>
          have hplain : ∀ j < src.words.length,
              inRun none j = false ∧ ¬ (j = 6 ∧ quadAt src none = true) :=
            fun j _ => ⟨rfl, fun h => nomatch h.2⟩
          have hall := @ntopLoop_front _ _ [] src.words hplain
          rw [hbest] at hloop
          rw [List.append_nil, hloop] at hall
          cases hall
          exact .full
      | some r =>
          obtain ⟨⟨pre, post, hwords, hbase⟩, hlen⟩ := bestRun_run hbest
          have hcount : r.base + r.len + post.length = 8 := by
            have h := congrArg List.length hwords
            rw [src.words_length, List.length_append, List.length_append, List.length_replicate] at h
            omega
          rw [hbest] at hloop
          cases hquad : quadAt src (some r) with
          | false =>
              rw [ntopLoop_run_eq (by omega) hwords hbase hquad] at hloop
              cases hloop
              have hprinted := Printed.short hlen hwords
              cases post with
              | nil =>
                  have hend : (some r).any (fun best => decide (best.base + best.len = 8)) = true :=
                    decide_eq_true hcount
                  rw [hend, if_pos rfl, List.append_assoc]
                  exact hprinted
              | cons w post =>
                  rw [List.length_cons] at hcount
                  have hend : (some r).any (fun best => decide (best.base + best.len = 8)) = false :=
                    decide_eq_false (by omega)
                  rw [hend, if_neg Bool.false_ne_true]
                  rw [joinGroups_hexGroups] at hprinted
                  exact hprinted
          | true =>
              obtain ⟨hzero, hkind⟩ := of_decide_eq_true hquad
              rw [hzero] at hbase
              cases List.length_eq_zero_iff.mp hbase
              rw [List.nil_append] at hwords
              rcases hkind with hsix | ⟨hfive, hffff⟩
              · rw [hsix] at hwords
                rw [ntopLoop_quad_eq hzero hsix hwords] at hloop
                cases hloop
                have hend : (some r).any (fun best => decide (best.base + best.len = 8)) = false :=
                  decide_eq_false (by omega)
                rw [hend, if_neg Bool.false_ne_true]
                exact .quad hwords
              · rw [hfive] at hwords
                cases post with
                | nil => 
                    rw [List.length_nil] at hcount
                    omega
                | cons w post =>
                    rw [hwords] at hffff
                    cases hffff
                    cases hmapped.symm.trans (v4Mapped_of_words hwords)

end TrIrcd
