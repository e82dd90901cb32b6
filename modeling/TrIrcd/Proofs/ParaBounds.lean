import TrIrcd.Proofs.PrefixParse

/-!
# Where the parameters of a line are written

The loop of the parsers writes one pointer for every parameter, as many as
there are in the line or as `paramcount` allows, but at least the first
(`paraLoop_last`); behind them it writes a NULL. `paramcount` is capped at
`MAXPARA`, which is the last index of the array, so that the NULL is within the
array exactly if there are fewer parameters than that (`lineWritten_le_iff`).
Commands that take `MAXPARA` parameters, and numerics, are one short of room.
-/

namespace TrIrcd

open TrIrcd.Lib

/-! ## The loop -/

variable {paramcount : Int}

/-- The last index that the loop has written. -/
theorem paraLoop_last (fuel : Nat) :
    ∀ {s : List UInt8} {i : Nat}, s.length ≤ fuel →
      ((paraLoop paramcount fuel s i).1 : Int) =
        i + min ((lineParams s).length : Int) (max 1 (paramcount - i)) := by
  induction fuel with
  | zero =>
      intro s i hfuel
      rw [List.eq_nil_of_length_eq_zero (Nat.le_zero.mp hfuel), lineParams_nil rfl, paraLoop,
        List.length_nil]
      omega
  | succ fuel ih =>
      intro s i hfuel
      rw [paraLoop]
      have hlen := skipSpaces_length s
      cases hs : skipSpaces s with
      | nil =>
          rw [lineParams_nil hs, List.length_nil]
          simp only
          omega
      | cons c t =>
          have hword := pastWord_length (skipSpaces_head hs) t
          rw [hs, List.length_cons] at hlen
          rw [lineParams_cons hs]
          simp only
          split
          · rw [List.length_singleton]
            simp only
            omega
          · rw [List.length_cons]
            split
            · simp only
              omega
            · have hrest := @ih (pastWord (c :: t)) (i + 1) (by omega)
              simp only [hrest]
              omega

/-- It has written no index above the last. -/
theorem paraLoop_le_last (fuel : Nat) :
    ∀ {s : List UInt8} {i : Nat}, i ≤ (paraLoop paramcount fuel s i).1 ∧
      ∀ j ∈ (paraLoop paramcount fuel s i).2, j ≤ (paraLoop paramcount fuel s i).1 := by
  induction fuel with
  | zero => exact ⟨Nat.le_refl _, fun j hj => absurd hj List.not_mem_nil⟩
  | succ fuel ih =>
      intro s i
      rw [paraLoop]
      cases hs : skipSpaces s with
      | nil => exact ⟨Nat.le_refl _, fun j hj => absurd hj List.not_mem_nil⟩
      | cons c t =>
          have hone : ∀ j ∈ [i + 1], j ≤ i + 1 :=
            List.forall_mem_singleton.mpr (Nat.le_refl _)
          simp only
          split
          · exact ⟨Nat.le_succ i, hone⟩
          · split
            · exact ⟨Nat.le_succ i, hone⟩
            · obtain ⟨hle, hall⟩ := @ih (pastWord (c :: t)) (i + 1)
              exact ⟨(Nat.le_succ i).trans hle, List.forall_mem_cons.mpr ⟨hle, hall⟩⟩

theorem paraWritten_none_le : ∀ i ∈ paraWritten paramcount none, i ≤ maxPara := by
  have hnone : paraWritten paramcount none = [0, 1] := rfl
  rw [hnone]
  decide

/-- The NULL is the last index written. -/
theorem paraWritten_some_le_iff (s : List UInt8) :
    (∀ i ∈ paraWritten paramcount (some s), i ≤ maxPara) ↔
      paramcount < maxPara ∨ (lineParams s).length < maxPara := by
  have hlast := @paraLoop_last (min paramcount maxPara) s.length s 0 (Nat.le_refl _)
  have hle := (@paraLoop_le_last (min paramcount maxPara) s.length s 0).2
  rw [paraWritten]
  simp only
  generalize paraLoop (min paramcount maxPara) s.length s 0 = r at *
  have hbound : (∀ i ∈ 0 :: r.2 ++ [r.1 + 1], i ≤ maxPara) ↔ r.1 + 1 ≤ maxPara := by
    constructor
    · intro hall
      exact hall _ (List.mem_append_right _ List.mem_cons_self)
    · intro hnull
      rw [List.forall_mem_append, List.forall_mem_cons, List.forall_mem_singleton]
      exact ⟨⟨Nat.zero_le _, fun i hi => by have := hle i hi; omega⟩, hnull⟩
  have hmax : maxPara = 15 := rfl
  rw [hbound]
  omega

/-! ## The calls -/

/-- `splitPara` finds as many parameters as the loop writes. -/
theorem length_splitPara (more : Nat) :
    ∀ {s : List UInt8}, (splitPara more s).length = min (lineParams s).length (more + 1) := by
  induction more with
  | zero =>
      intro s
      rw [splitPara.eq_def]
      cases hs : skipSpaces s with
      | nil => simp only [hs, lineParams_nil hs, List.length_nil, Nat.zero_min]
      | cons c t =>
          rw [lineParams_cons hs]
          simp only [hs]
          split
          · rfl
          · simp only [List.length_cons, List.length_nil]
            omega
  | succ more ih =>
      intro s
      rw [splitPara.eq_def]
      cases hs : skipSpaces s with
      | nil => simp only [hs, lineParams_nil hs, List.length_nil, Nat.zero_min]
      | cons c t =>
          rw [lineParams_cons hs]
          simp only [hs]
          split
          · rw [List.length_singleton]
            omega
          · rw [List.length_cons, List.length_cons, ih]
            omega

namespace ParseSt

variable {s : ParseSt} {cptr source msg : Nat} {para0 : List UInt8}

theorem paraOf_overflow_iff (params : List (List UInt8)) :
    s.paraOf para0 params = .error .overflow ↔ maxPara ≤ params.length := by
  constructor
  · intro h
    by_contra hlt
    rw [paraOf_readId (Nat.lt_of_not_le hlt)] at h
    cases h
  · intro h
    rw [paraOf.eq_def, if_pos h]

theorem map_overflow_iff {α β : Type} {x : Except ParseFault α} {f : α → β} :
    x.map f = .error .overflow ↔ x = .error .overflow := by
  cases x with
  | error e => simp [Except.map]
  | ok a => simp [Except.map]

/-- The overflow of `runMessage` is a NULL behind the array. -/
theorem runMessage_overflow_iff (hsmall : s.parameters msg < 2147483648)
    (rest : Option (List UInt8)) :
    s.runMessage cptr msg source para0 rest = .error .overflow ↔
      ¬∀ i ∈ paraWritten (s.paramcount msg) rest, i ≤ maxPara := by
  have hcount : s.paramcount msg = s.parameters msg :=
    Int.bmod_eq_of_le_mul_two (by rw [UInt32.size]; omega) (by rw [UInt32.size]; omega)
  rw [runMessage, map_overflow_iff, paraOf_overflow_iff]
  cases rest with
  | none => exact iff_of_false (by simp [maxPara]) fun h => h paraWritten_none_le
  | some s' =>
      have hlen := @length_splitPara (min (s.parameters msg) maxPara - 1) s'
      have hmax : maxPara = 15 := rfl
      rw [paraWritten_some_le_iff, hcount]
      simp only [Option.map_some, Option.getD_some, hlen]
      omega

theorem runNumeric_overflow_iff {a b c : UInt8} (rest : List UInt8) :
    s.runNumeric source para0 a b c rest = .error .overflow ↔
      ¬∀ i ∈ paraWritten maxPara (some rest), i ≤ maxPara := by
  have hlen := @length_splitPara (maxPara - 1) rest
  have hmax : maxPara = 15 := rfl
  rw [runNumeric]
  simp only [map_overflow_iff]
  rw [paraOf_overflow_iff, paraWritten_some_le_iff, hlen]
  omega

/-- What is written for a line, if the loop is reached. -/
def Within (x : Option (Int × Option (List UInt8))) : Prop :=
  ∀ r ∈ x, ∀ i ∈ paraWritten r.1 r.2, i ≤ maxPara

theorem within_some {n : Int} {rest : Option (List UInt8)} :
    Within (some (n, rest)) ↔ ∀ i ∈ paraWritten n rest, i ≤ maxPara := by
  simp [Within]

theorem within_none : Within none := fun r hr => absurd hr (Option.not_mem_none r)

theorem runCommand_overflow_iff (hsmall : ∀ msg, s.parameters msg < 2147483648) (ch : List UInt8) :
    s.runCommand cptr source para0 ch = .error .overflow ↔ ¬Within (s.wordPara ch) := by
  rw [runCommand, wordPara]
  cases hmsg : s.commands.hashParse (cutCommand ch).1 with
  | error e => exact iff_of_false (by simp) fun h => h within_none
  | ok msg =>
      cases msg with
      | none => exact iff_of_false (by simp) fun h => h within_none
      | some msg =>
          simp only
          rw [runMessage_overflow_iff (hsmall msg), within_some]

theorem runToken_overflow_iff (hsmall : ∀ msg, s.parameters msg < 2147483648) (ch : UInt8)
    (rest : Option (List UInt8)) :
    s.runToken cptr source para0 ch rest = .error .overflow ↔ ¬Within (s.tokenPara ch rest) := by
  rw [runToken, tokenPara]
  cases s.tok1Cmd ch with
  | none => exact iff_of_false (by simp) fun h => h within_none
  | some cmd =>
      cases s.tok1Msg ch with
      | none => exact iff_of_false (by simp) fun h => h within_none
      | some msg =>
          simp only
          rw [runMessage_overflow_iff (hsmall msg), within_some]

theorem serverCommand_overflow_iff (hsmall : ∀ msg, s.parameters msg < 2147483648)
    (ch : List UInt8) :
    s.serverCommand cptr source para0 ch = .error .overflow ↔ ¬Within (s.serverPara ch) := by
  rw [serverCommand.eq_def, serverPara.eq_def]
  split
  · exact iff_of_false (by simp) fun h => h within_none
  · exact runToken_overflow_iff hsmall _ _
  · exact runToken_overflow_iff hsmall _ _
  · exact runCommand_overflow_iff hsmall _
  · exact runCommand_overflow_iff hsmall _
  · split
    · rw [runNumeric_overflow_iff, within_some]
    · exact runCommand_overflow_iff hsmall _

/-- The overflow of a line is a NULL behind the array. -/
theorem parse_overflow_iff (hsmall : ∀ msg, s.parameters msg < 2147483648) (server : Bool)
    (cptr : Nat) (buffer : List UInt8) :
    s.parse server cptr buffer = .error .overflow ↔
      ¬Within (s.linePara server cptr buffer) := by
  have hnone : ∀ r : Parsed, Except.ok r = (.error .overflow : Except ParseFault Parsed) ↔
      ¬Within none := fun r => iff_of_false (by simp) fun h => h within_none
  rw [parse, linePara]
  cases server with
  | true =>
      rw [if_pos rfl, if_pos rfl, serverParse, serverPrefix]
      split
      · exact hnone .dead
      · dsimp only
        split
        · next hsource =>
            rw [hsource]
            exact hnone _
        · next hsource =>
            rw [hsource]
            exact serverCommand_overflow_iff hsmall _
  | false =>
      rw [if_neg Bool.false_ne_true, if_neg Bool.false_ne_true, userParse, userPrefix]
      split
      · exact hnone .dead
      · dsimp only
        split
        · next hsource =>
            rw [hsource]
            exact hnone _
        · next hsource =>
            rw [hsource]
            exact hnone .empty
        · next hch hsource =>
            rw [hsource]
            simp only [if_neg hch]
            exact runCommand_overflow_iff hsmall _

end ParseSt

/-- For every line, the parsers stay within `para` exactly if the command, where
there is one, takes fewer than `MAXPARA` parameters or fewer follow it. -/
theorem lineWritten_le_iff (s : ParseSt) (server : Bool) (cptr : Nat) (buffer : List UInt8) :
    (∀ i ∈ s.lineWritten server cptr buffer, i ≤ maxPara) ↔
      ∀ r ∈ s.linePara server cptr buffer,
        r.1 < maxPara ∨ ∀ text ∈ r.2, (lineParams text).length < maxPara := by
  rw [ParseSt.lineWritten]
  cases hline : s.linePara server cptr buffer with
  | none => simp
  | some r =>
      obtain ⟨paramcount, rest⟩ := r
      simp only [Option.mem_some_iff, forall_eq']
      cases rest with
      | none => exact iff_of_true paraWritten_none_le (.inr fun text h => nomatch h)
      | some text => simp only [paraWritten_some_le_iff, Option.mem_some_iff, forall_eq']

/-- The line `PRIVMSG` with fifteen parameters. -/
def longLine : List UInt8 := privmsg ++ 0x20 :: longBody

/-- From a server or a user, the line writes `para[16]`. -/
theorem lineWritten_overrun :
    16 ∈ privmsgLink.lineWritten true 2 longLine ∧ 16 ∈ privmsgLink.lineWritten false 2 longLine ∧
      ¬∀ i ∈ privmsgLink.lineWritten true 2 longLine, i ≤ maxPara := by
  have hserver : 16 ∈ privmsgLink.lineWritten true 2 longLine := by decide
  have huser : 16 ∈ privmsgLink.lineWritten false 2 longLine := by decide
  exact ⟨hserver, huser, fun h => absurd (h 16 hserver) (by decide)⟩

end TrIrcd
