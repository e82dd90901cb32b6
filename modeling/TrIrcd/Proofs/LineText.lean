import TrIrcd.Src.Linebuf

/-!
# What a copy writes into a line

The bytes of a line after `linebufCopyLine`, from those before and the data:
the text up to the first CR or LF follows what the line held, the line end is
taken off again, and what does not fit is gone. `linebufCopyLine_cases` is
the three ways the function can go, with the length of the line in each.
-/

namespace TrIrcd

open Function (update)
open TrIrcd.Lib

/-! ## Text and line end -/

theorem upToEol_append_eolsAfter (ch : List UInt8) :
    ∃ rest, ch = upToEol ch ++ (eolsAfter ch ++ rest) := by
  refine ⟨(ch.drop (upToEol ch).length).dropWhile isEol, ?_⟩
  have h1 : upToEol ch ++ ch.dropWhile (fun c => !isEol c) = ch :=
    List.takeWhile_append_dropWhile
  have h2 := congrArg (List.drop (upToEol ch).length) h1
  rw [List.drop_left] at h2
  rw [eolsAfter, List.takeWhile_append_dropWhile, ← h2, h1]

theorem take_eq_upToEol_append (ch : List UInt8) :
    ch.take ((upToEol ch).length + (eolsAfter ch).length) = upToEol ch ++ eolsAfter ch := by
  obtain ⟨rest, h⟩ := upToEol_append_eolsAfter ch
  have htake := congrArg (List.take ((upToEol ch).length + (eolsAfter ch).length)) h
  rw [htake, ← List.append_assoc, List.take_left' (by rw [List.length_append])]

theorem not_isEol_of_mem_upToEol {ch : List UInt8} {c : UInt8} (h : c ∈ upToEol ch) :
    isEol c = false := by
  have := List.all_eq_true.mp (List.all_takeWhile (p := fun c => !isEol c) (l := ch)) c h
  simpa using this

theorem isEol_of_mem_eolsAfter {ch : List UInt8} {c : UInt8} (h : c ∈ eolsAfter ch) :
    isEol c = true :=
  List.all_eq_true.mp (List.all_takeWhile ..) c h

theorem linebufSkipCrlf_eq_ok {ch : List UInt8} {n : Nat}
    (h : linebufSkipCrlf ch = .ok n) :
    n = (upToEol ch).length + (eolsAfter ch).length ∧ 0 < n ∧ n ≤ ch.length := by
  simp only [linebufSkipCrlf] at h
  split at h
  · next hpos =>
      cases h
      obtain ⟨rest, hch⟩ := upToEol_append_eolsAfter ch
      have hlen := congrArg List.length hch
      simp only [List.length_append] at hlen
      exact ⟨rfl, hpos, by omega⟩
  · cases h

theorem linebufSkipCrlf_of_ne_nil {ch : List UInt8} (h : ch ≠ []) :
    linebufSkipCrlf ch = .ok ((upToEol ch).length + (eolsAfter ch).length) := by
  simp only [linebufSkipCrlf]
  rw [if_pos]
  obtain ⟨c, cs, rfl⟩ := List.exists_cons_of_ne_nil h
  cases hc : isEol c with
  | true =>
      have hup : upToEol (c :: cs) = [] := by simp [upToEol, hc]
      simp [eolsAfter, hup, hc]
  | false =>
      simp only [upToEol, List.takeWhile_cons, hc, Bool.not_false, if_true,
        List.length_cons]
      omega

/-! ## Taking the line end off -/

/-- The last byte is not CR or LF. -/
def EndsInText (a : List UInt8) : Prop := ∀ c, a.getLast? = some c → isEol c = false

theorem EndsInText.nil : EndsInText [] := fun c h => by cases h

theorem endsInText_append {a b : List UInt8} (ha : EndsInText a)
    (hb : ∀ c ∈ b, isEol c = false) : EndsInText (a ++ b) := by
  intro c hc
  rw [List.getLast?_append] at hc
  cases hl : b.getLast? with
  | none =>
      rw [hl] at hc
      exact ha c (by simpa using hc)
  | some d =>
      rw [hl] at hc
      cases hc
      exact hb _ (List.mem_of_getLast? hl)

/-- The loop takes CR and LF off the end of the first `n` bytes, as long as
its count lasts. Induction on how many there are. -/
theorem yankCrlf_eq :
    ∀ {b : List UInt8} {a buf : List UInt8} {n cpylen : Nat},
      buf.take n = a ++ b → n = a.length + b.length → (∀ c ∈ b, isEol c = true) →
      (cpylen = b.length ∨ EndsInText a) → b.length ≤ cpylen →
      yankCrlf n cpylen buf =
        (cpylen - b.length, a ++ List.replicate b.length 0 ++ buf.drop n) := by
  intro b
  induction b using List.reverseRecOn with
  | nil =>
      intro a buf n cpylen htake hn _ hend _
      have hbuf : a ++ List.replicate ([] : List UInt8).length 0 ++ buf.drop n = buf := by
        rw [List.append_nil] at htake
        rw [List.length_nil, List.replicate_zero, List.append_nil, ← htake,
          List.take_append_drop]
      rw [hbuf, List.length_nil, Nat.sub_zero]
      cases n with
      | zero => rfl
      | succ n =>
          cases cpylen with
          | zero => rfl
          | succ cpylen =>
              rw [yankCrlf]
              have hend := hend.resolve_left (by simp)
              have hlast : a.getLast? = some (buf.getD n 0) := by
                rw [List.append_nil] at htake
                have hlt : n < buf.length := by
                  have := congrArg List.length htake
                  rw [List.length_take] at this
                  simp only [List.length_nil] at hn
                  omega
                rw [← htake, List.getLast?_take]
                simp [hlt]
              rw [hend _ hlast]
              rfl
  | append_singleton b x ih =>
      intro a buf n cpylen htake hn hb hend hle
      simp only [List.length_append, List.length_singleton] at hn hle
      obtain ⟨m, rfl⟩ : ∃ m, n = m + 1 := ⟨a.length + b.length, by omega⟩
      obtain ⟨k, rfl⟩ : ∃ k, cpylen = k + 1 := ⟨cpylen - 1, by omega⟩
      rw [← List.append_assoc] at htake
      obtain ⟨hx, htake', hdrop⟩ := set_of_take_succ htake
        (by rw [List.length_append]; omega) 0
      rw [yankCrlf, hx, if_pos (hb x (by simp)),
        ih htake' (by omega) (fun c hc => hb c (by simp [hc]))
          (hend.imp_left (by simp)) (by omega), hdrop]
      simp [List.replicate_succ', Nat.add_sub_add_right]

theorem length_yankCrlf (n cpylen : Nat) (buf : List UInt8) :
    (yankCrlf n cpylen buf).2.length = buf.length := by
  induction n generalizing cpylen buf with
  | zero => rfl
  | succ n ih =>
      cases cpylen with
      | zero => rfl
      | succ cpylen =>
          rw [yankCrlf]
          split
          · rw [ih, List.length_set]
          · rfl

/-! ## A copy -/

/-- What the line gets when the data do not fit: the text as far as there is
room, and NULs for the line end that was cut with it. -/
theorem yankCrlf_full {buf data : List UInt8} {len clen : Nat}
    (hbuf : buf.length = bufDataSize) (hlen : len < bufDataSize)
    (hend : EndsInText (buf.take len))
    (hclen : clen = (upToEol data).length + (eolsAfter data).length)
    (hfull : bufDataSize - len - 1 < clen) :
    ∃ z, (yankCrlf (bufDataSize - 1) clen
        ((blit buf len (data.take (bufDataSize - len - 1))).set (bufDataSize - 1) 0)).2.take
          (bufDataSize - 1) =
      (buf.take len ++ upToEol data).take (bufDataSize - 1) ++ List.replicate z 0 := by
  obtain ⟨rest, hdata⟩ := upToEol_append_eolsAfter data
  have hroom : (data.take (bufDataSize - len - 1)).length = bufDataSize - len - 1 := by
    have := congrArg List.length hdata
    simp only [List.length_append] at this
    rw [List.length_take]
    omega
  have hsplit : data.take (bufDataSize - len - 1) =
      (upToEol data).take (bufDataSize - len - 1) ++
        (eolsAfter data).take (bufDataSize - len - 1 - (upToEol data).length) := by
    have htake := take_eq_upToEol_append data
    rw [← hclen] at htake
    rw [← List.take_append, ← htake, List.take_take, Nat.min_eq_left (by omega)]
  have hcopied := @take_blit_set buf (data.take (bufDataSize - len - 1)) len (by omega) 0
  rw [hroom, show len + (bufDataSize - len - 1) = bufDataSize - 1 by omega, hsplit,
    ← List.append_assoc] at hcopied
  have hlens := congrArg List.length hsplit
  rw [hroom, List.length_append] at hlens
  have hends : EndsInText (buf.take len ++ (upToEol data).take (bufDataSize - len - 1)) :=
    endsInText_append hend fun c hc => not_isEol_of_mem_upToEol (List.mem_of_mem_take hc)
  have hyank := @yankCrlf_eq _ _ _ _ clen hcopied
    (by rw [List.length_append, List.length_take]; omega)
    (fun c hc => isEol_of_mem_eolsAfter (List.mem_of_mem_take hc))
    (Or.inr hends) (by rw [List.length_take]; omega)
  rw [← hsplit] at hyank
  refine ⟨((eolsAfter data).take
    (bufDataSize - len - 1 - (upToEol data).length)).length, ?_⟩
  have hkept : (buf.take len ++ upToEol data).take (bufDataSize - 1) =
      buf.take len ++ (upToEol data).take (bufDataSize - len - 1) := by
    rw [List.take_append, List.take_take, Nat.min_eq_right (by omega), List.length_take,
      Nat.min_eq_left (by omega), Nat.sub_right_comm]
  rw [hyank, hkept, List.take_left']
  rw [List.length_append, List.length_append, List.length_replicate,
    List.length_take_of_le (show len ≤ buf.length by omega)]
  omega

section Fits

variable {buf data : List UInt8} {len clen : Nat} (hlen : len + clen < buf.length)
  (hclen : clen = (upToEol data).length + (eolsAfter data).length)

/-- The line with the data copied in and a NUL after them. -/
def copiedIn (buf data : List UInt8) (len clen : Nat) : List UInt8 :=
  (blit buf len (data.take clen)).set (len + clen) 0

include hlen hclen

theorem length_copiedIn : (copiedIn buf data len clen).length = buf.length := by
  rw [copiedIn, List.length_set, length_blit]
  rw [hclen, take_eq_upToEol_append, List.length_append]
  omega

theorem take_copiedIn :
    (copiedIn buf data len clen).take (len + clen) =
      (buf.take len ++ upToEol data) ++ eolsAfter data := by
  have htake : data.take clen = upToEol data ++ eolsAfter data := by
    rw [hclen, take_eq_upToEol_append]
  have hsrc : (data.take clen).length = clen := by
    rw [htake, List.length_append, ← hclen]
  have h := @take_blit_set buf (data.take clen) len (by omega) 0
  rw [hsrc] at h
  rw [List.append_assoc, ← htake]
  exact h

/-- The last byte copied. -/
theorem getLast?_copiedIn (hpos : 0 < clen) :
    ((buf.take len ++ upToEol data) ++ eolsAfter data).getLast? =
      some ((copiedIn buf data len clen).getD (len + clen - 1) 0) := by
  have hlt : len + clen - 1 < (copiedIn buf data len clen).length := by
    rw [length_copiedIn hlen hclen]
    omega
  rw [← take_copiedIn hlen hclen, List.getLast?_take, if_neg (by omega),
    List.getElem?_eq_getElem hlt, List.getD_eq_getElem?_getD, List.getElem?_eq_getElem hlt]
  rfl

/-- Without a line end the line has the text, and ends in it. -/
theorem copiedIn_text (hpos : 0 < clen) (he : eolsAfter data = []) :
    (copiedIn buf data len clen).take (len + clen) = buf.take len ++ upToEol data ∧
      isEol ((copiedIn buf data len clen).getD (len + clen - 1) 0) = false := by
  have hcopied := take_copiedIn hlen hclen
  have hlast := getLast?_copiedIn hlen hclen hpos
  rw [he, List.append_nil] at hcopied hlast
  have ht : upToEol data ≠ [] := by
    intro ht
    rw [he, ht] at hclen
    simp only [List.length_nil] at hclen
    omega
  rw [List.getLast?_append_of_ne_nil _ ht] at hlast
  exact ⟨hcopied, not_isEol_of_mem_upToEol (List.mem_of_getLast? hlast)⟩

/-- With one the line ends in it, and has the text after it was taken off. -/
theorem yankCrlf_fits (hpos : 0 < clen) (he : eolsAfter data ≠ []) :
    isEol ((copiedIn buf data len clen).getD (len + clen - 1) 0) = true ∧
      ∃ buf', yankCrlf (len + clen) clen (copiedIn buf data len clen) =
          ((upToEol data).length, buf') ∧
        buf'.length = buf.length ∧
        buf'.take (len + (upToEol data).length) = buf.take len ++ upToEol data := by
  have hlast := getLast?_copiedIn hlen hclen hpos
  rw [List.getLast?_append_of_ne_nil _ he] at hlast
  refine ⟨isEol_of_mem_eolsAfter (List.mem_of_getLast? hlast), ?_⟩
  have hend : clen = (eolsAfter data).length ∨ EndsInText (buf.take len ++ upToEol data) := by
    rcases eq_or_ne (upToEol data) [] with ht | ht
    · left
      rw [hclen, ht, List.length_nil, Nat.zero_add]
    · right
      intro c hc
      rw [List.getLast?_append_of_ne_nil _ ht] at hc
      exact not_isEol_of_mem_upToEol (List.mem_of_getLast? hc)
  have hyank := yankCrlf_eq (take_copiedIn hlen hclen)
    (by rw [List.length_append, List.length_take]; omega)
    (fun c hc => isEol_of_mem_eolsAfter hc) hend (by omega)
  refine ⟨(yankCrlf (len + clen) clen (copiedIn buf data len clen)).2, Prod.ext ?_ rfl,
    ?_, ?_⟩
  · rw [hyank]
    show clen - (eolsAfter data).length = (upToEol data).length
    omega
  · rw [length_yankCrlf, length_copiedIn hlen hclen]
  · rw [hyank]
    show (buf.take len ++ upToEol data ++ _ ++ _).take _ = _
    rw [List.append_assoc, List.take_left']
    rw [List.length_append, List.length_take]
    omega

end Fits

/-- The line a copy leaves. -/
def BufLine.filled (ln : BufLine) (buf : List UInt8) (terminated : Bool) (len : Nat) :
    BufLine :=
  { ln with raw := false, buf := buf, terminated := terminated, len := len }

variable {s : LineSt} {bufhead : HeadId} {bufline : Nat} {data : List UInt8}

/-- A line that is not terminated either has room for the data up to the next
line, or is filled up. The length of its head grows by what was copied in the
first case; in the second by the length of the whole line, whatever part of
it was there before. -/
theorem linebufCopyLine_cases (hbuf : (s.line bufline).buf.length = bufDataSize)
    (hlen : (s.line bufline).len < bufDataSize)
    (hterm : (s.line bufline).terminated = false) (hdata : data ≠ []) :
    ∃ buf : List UInt8, buf.length = bufDataSize ∧
      let clen := (upToEol data).length + (eolsAfter data).length
      let old := (s.line bufline).buf.take (s.line bufline).len
      let room := bufDataSize - (s.line bufline).len - 1
      (clen ≤ room ∧ buf.take (old.length + (upToEol data).length) = old ++ upToEol data ∧
        linebufCopyLine bufhead bufline data s = .ok (clen, s.store bufhead bufline
          ((s.line bufline).filled buf (eolsAfter data ≠ [])
            ((s.line bufline).len + (upToEol data).length))
          (upToEol data).length)) ∨
      (room < clen ∧
        (EndsInText old → ∃ z, buf.take (bufDataSize - 1) =
          (old ++ upToEol data).take (bufDataSize - 1) ++ List.replicate z 0) ∧
        linebufCopyLine bufhead bufline data s = .ok (clen, s.store bufhead bufline
          ((s.line bufline).filled buf true (bufDataSize - 1)) (bufDataSize - 1))) := by
  have hskip := linebufSkipCrlf_of_ne_nil hdata
  have hpos := (linebufSkipCrlf_eq_ok hskip).2.1
  have hle := (linebufSkipCrlf_eq_ok hskip).2.2
  have hold : ((s.line bufline).buf.take (s.line bufline).len).length =
      (s.line bufline).len := List.length_take_of_le (by omega)
  simp only [linebufCopyLine, hskip, hterm]
  rw [if_neg (not_not.mpr hlen), if_neg Bool.false_ne_true]
  simp only [Except.bind]
  by_cases hfull : bufDataSize - (s.line bufline).len - 1 <
      (upToEol data).length + (eolsAfter data).length
  · rw [if_pos hfull]
    refine ⟨_, ?_, Or.inr ⟨hfull, fun hend => ?_, rfl⟩⟩
    · rw [length_yankCrlf, List.length_set, length_blit, hbuf]
      rw [List.length_take, hbuf]
      omega
    · exact yankCrlf_full hbuf hlen hend rfl hfull
  · rw [if_neg hfull]
    have hroom : (s.line bufline).len + ((upToEol data).length + (eolsAfter data).length) <
        (s.line bufline).buf.length := by omega
    rcases eq_or_ne (eolsAfter data) [] with he | he
    · obtain ⟨htake, heol⟩ := copiedIn_text hroom rfl hpos he
      refine ⟨copiedIn (s.line bufline).buf data (s.line bufline).len
        ((upToEol data).length + (eolsAfter data).length), ?_, Or.inl ⟨by omega, ?_, ?_⟩⟩
      · rw [length_copiedIn hroom rfl, hbuf]
      · rw [hold, ← htake, he, List.length_nil, Nat.add_zero]
      · rw [copiedIn] at heol
        rw [heol]
        simp [he, BufLine.filled, copiedIn]
    · obtain ⟨heol, buf, hyank, hbuf', htake⟩ := yankCrlf_fits hroom rfl hpos he
      refine ⟨buf, by rw [hbuf', hbuf], Or.inl ⟨by omega, by rw [hold, htake], ?_⟩⟩
      rw [copiedIn] at heol hyank
      rw [heol, hyank]
      simp [he, BufLine.filled]

end TrIrcd
