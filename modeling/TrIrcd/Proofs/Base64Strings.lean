import TrIrcd.Proofs.Base64
import TrIrcd.Proofs.PrefixParse

/-!
# Ids as strings

`base64enc_r` fills a buffer of 8 bytes from the end, and never runs off its
start: a value of 32 bits has at most six digits. What stands at the pointer it
returns is the text of `int_to_base64`, with its NUL (`base64encR_eq`), so
`base64dec` gives the value back.

`base64_to_int` reads its first character without a look at it, and on an empty
string that is the NUL: the loop then starts behind it (`base64Reads_iff`). The
strings of a line it is handed are those the answer of a parser depends on
(`parse_withIds`). One of them is empty for a sender that is called `!` and
nothing else, and for a first parameter like that (`base64_safe_iff`). The test
of `*sender` does not help, since the exclamation mark is in `sender`.
-/

namespace TrIrcd

open TrIrcd.Lib

/-! ## The buffer -/

theorem drop_set_self {b : List UInt8} {i : Nat} (hi : i < b.length) (c : UInt8) :
    (b.set i c).drop i = c :: b.drop (i + 1) := by
  rw [List.drop_eq_getElem_cons (by rwa [List.length_set]), List.getElem_set_self,
    List.drop_set_of_lt (Nat.lt_succ_self i)]

theorem intToBase64Loop_append (fuel : Nat) :
    ∀ (val : UInt32) (buf t : List UInt8),
      intToBase64Loop fuel val (buf ++ t) = intToBase64Loop fuel val buf ++ t := by
  induction fuel with
  | zero => exact fun val buf t => rfl
  | succ fuel ih =>
      intro val buf t
      rw [intToBase64Loop, intToBase64Loop]
      simp only [← List.cons_append]
      split
      · exact ih _ _ t
      · rfl

/-- The loop writes below `i` only. -/
theorem intToBase64RLoop_lt (fuel : Nat) :
    ∀ {i : Nat} {val : UInt32}, fuel ≤ i →
      ∀ p ∈ (intToBase64RLoop fuel i val).2, p.1 < i := by
  induction fuel with
  | zero => exact fun _ p hp => absurd hp List.not_mem_nil
  | succ fuel ih =>
      intro i val hle p hp
      rw [intToBase64RLoop] at hp
      simp only at hp
      split at hp
      · rcases List.mem_cons.mp hp with rfl | hp
        · omega
        · have hlt := ih (by omega : fuel ≤ i - 1) p hp
          omega
      · rw [List.mem_singleton.mp hp]
        omega

/-- What it leaves from the last index on is what the other loop makes. -/
theorem intToBase64RLoop_drop (fuel : Nat) :
    ∀ {i : Nat} (val : UInt32) {b : List UInt8}, fuel ≤ i → i ≤ b.length →
      ((intToBase64RLoop fuel i val).2.foldl (fun b p => b.set p.1 p.2) b).drop
          (intToBase64RLoop fuel i val).1 =
        intToBase64Loop fuel val (b.drop i) := by
  induction fuel with
  | zero => exact fun val b hle hi => rfl
  | succ fuel ih =>
      intro i val b hle hi
      have hset : (b.set (i - 1) (int6ToBase64 val)).drop (i - 1) =
          int6ToBase64 val :: b.drop i := by
        rw [drop_set_self (by omega), Nat.sub_add_cancel (by omega)]
      rw [intToBase64RLoop, intToBase64Loop]
      simp only
      split
      · rw [List.foldl_cons, ih _ (by omega) (by rw [List.length_set]; omega), hset]
      · rw [List.foldl_cons, List.foldl_nil, hset]

theorem base64encR_eq (v : UInt32) {b : List UInt8} (hb : b.length = 8) :
    base64encR v b = intToBase64 v ++ [0] := by
  have hdrop := intToBase64RLoop_drop 6 v (b := b.set 7 0) (by omega : 6 ≤ 7)
    (by rw [List.length_set]; omega)
  have hnil : b.drop 8 = [] := List.drop_of_length_le (by omega)
  rw [drop_set_self (by omega), hnil] at hdrop
  rw [intToBase64, ← intToBase64Loop_append, List.nil_append, ← hdrop]
  rfl

theorem intToBase64R_lt (v : UInt32) : ∀ p ∈ (intToBase64R v).2, p.1 < 8 := by
  intro p hp
  rw [intToBase64R] at hp
  rcases List.mem_cons.mp hp with rfl | hp
  · omega
  · have hlt := intToBase64RLoop_lt 6 (by omega : 6 ≤ 7) p hp
    omega

theorem base64dec_base64encR (v : UInt32) {b : List UInt8} (hb : b.length = 8) :
    base64dec (base64encR v b) = v := by
  have hcstr : cstr (intToBase64 v ++ [0]) = cstr (intToBase64 v) := by
    rw [← cstr_intToBase64 v, cstr_terminated (zero_notMem_cstr _), cstr_cstr]
  rw [base64encR_eq v hb, base64dec, base64ToInt, hcstr]
  exact base64ToInt_intToBase64 v

/-! ## What is read -/

theorem base64ReadLoop_le (b64 : List UInt8) :
    ∀ i, i ∈ base64ReadLoop b64 i ∧ ∀ k ∈ base64ReadLoop b64 i, k ≤ i + (cstr b64).length := by
  induction b64 with
  | nil =>
      intro i
      refine ⟨List.mem_cons_self, fun k hk => ?_⟩
      rw [List.mem_singleton.mp hk]
      exact Nat.le_add_right _ _
  | cons c b64 ih =>
      intro i
      rw [base64ReadLoop]
      split
      · refine ⟨List.mem_cons_self, fun k hk => ?_⟩
        rw [List.mem_singleton.mp hk]
        exact Nat.le_add_right _ _
      · next hc =>
          refine ⟨List.mem_cons_self, fun k hk => ?_⟩
          rw [cstr_cons_of_ne hc, List.length_cons]
          rcases List.mem_cons.mp hk with rfl | hk
          · exact Nat.le_add_right _ _
          · have hle := (ih (i + 1)).2 k hk
            omega

/-- No byte behind the NUL is read, unless the string is empty. -/
theorem base64Reads_iff (b64 : List UInt8) :
    (∀ i ∈ base64Reads b64, i ≤ (cstr b64).length) ↔ cstr b64 ≠ [] := by
  constructor
  · intro h hnil
    have hone := h 1 (List.mem_cons_of_mem _ (base64ReadLoop_le b64.tail 1).1)
    rw [hnil] at hone
    simp at hone
  · intro hne i hi
    cases b64 with
    | nil => exact absurd rfl hne
    | cons c b64 =>
        have hc : c ≠ 0 := by
          rintro rfl
          exact hne rfl
        rw [cstr_cons_of_ne hc, List.length_cons]
        rcases List.mem_cons.mp hi with rfl | hi
        · exact Nat.zero_le _
        · have hle := (base64ReadLoop_le b64 1).2 i hi
          omega

/-! ## What the parsers hand over -/

theorem skipSpaces_suffix (s : List UInt8) : skipSpaces s <:+ s := List.dropWhile_suffix _

theorem pastWord_suffix (s : List UInt8) : pastWord s <:+ s := List.dropWhile_suffix _

theorem firstWord_start (s : List UInt8) : firstWord s <+: s := List.takeWhile_prefix _

theorem cutCommand_suffix {ch rest : List UInt8} (h : (cutCommand ch).2 = some rest) :
    rest <:+ ch := by
  have hpast := pastWord_suffix ch
  rw [cutCommand] at h
  cases hs : pastWord ch with
  | nil =>
      rw [hs] at h
      cases h
  | cons c s =>
      rw [hs] at h hpast
      cases h
      exact (List.suffix_cons c _).trans hpast

/-- A parameter is a part of what is split. -/
theorem splitPara_part (more : Nat) {s p : List UInt8} (h : (splitPara more s).head? = some p) :
    p <:+: s := by
  have hsuffix := skipSpaces_suffix s
  rw [splitPara.eq_def] at h
  cases hs : skipSpaces s with
  | nil =>
      simp only [hs] at h
      cases h
  | cons c t =>
      rw [hs] at hsuffix
      simp only [hs] at h
      split at h
      · cases h
        exact ((List.suffix_cons c _).trans hsuffix).isInfix
      · cases more with
        | zero =>
            cases h
            exact hsuffix.isInfix
        | succ more =>
            cases h
            exact (firstWord_start (c :: t)).isInfix.trans hsuffix.isInfix

namespace ParseSt

variable {s : ParseSt} {cptr source : Nat} {server : Bool} {buffer : List UInt8}

theorem resolve_rest {sender given para0 ch rest : List UInt8} {found : Option Nat}
    (h : s.resolve cptr sender given found ch = .ok (source, para0, rest)) : rest = ch := by
  cases found with
  | none => cases h
  | some d =>
      simp only [resolve] at h
      split at h
      · cases h
      · cases h
        rfl

theorem namePrefix_suffix {ch para0 rest : List UInt8}
    (h : s.namePrefix cptr ch = .ok (source, para0, rest)) : rest <:+ ch := by
  have hrest := (skipSpaces_suffix (pastWord ch)).trans (pastWord_suffix ch)
  rw [namePrefix] at h
  split at h
  · cases h
    exact hrest
  · rw [resolve_rest h]
    exact hrest

theorem serverPrefix_suffix {para0 rest : List UInt8}
    (h : s.serverPrefix cptr buffer = .ok (source, para0, rest)) : rest <:+ buffer := by
  rw [serverPrefix] at h
  split at h
  · next ch hs =>
      exact (namePrefix_suffix h).trans
        ((List.suffix_cons _ ch).trans (hs ▸ skipSpaces_suffix buffer))
  · next ch hs =>
      rw [idPrefix] at h
      rw [resolve_rest h]
      exact (skipSpaces_suffix _).trans ((pastWord_suffix _).trans (hs ▸ skipSpaces_suffix buffer))
  · next ch hcolon hbang =>
      cases h
      exact skipSpaces_suffix buffer

theorem userPrefix_suffix {para0 rest : List UInt8}
    (h : s.userPrefix cptr buffer = .ok (source, para0, rest)) : rest <:+ buffer := by
  rw [userPrefix] at h
  split at h
  · next ch hs =>
      exact (namePrefix_suffix h).trans
        ((List.suffix_cons _ ch).trans (hs ▸ skipSpaces_suffix buffer))
  · next ch hcolon =>
      cases h
      exact skipSpaces_suffix buffer

theorem wordPara_suffix {ch rest : List UInt8} {paramcount : Int}
    (h : s.wordPara ch = some (paramcount, some rest)) : rest <:+ ch := by
  rw [wordPara] at h
  split at h
  · obtain ⟨-, hrest⟩ := Prod.mk.inj (Option.some.inj h)
    exact cutCommand_suffix hrest
  · cases h

theorem tokenPara_rest {c : UInt8} {rest : List UInt8} {more : Option (List UInt8)}
    {paramcount : Int} (h : s.tokenPara c more = some (paramcount, some rest)) :
    more = some rest := by
  rw [tokenPara] at h
  split at h
  · exact (Prod.mk.inj (Option.some.inj h)).2
  · cases h

theorem serverPara_suffix {ch rest : List UInt8} {paramcount : Int}
    (h : s.serverPara ch = some (paramcount, some rest)) : rest <:+ ch := by
  rw [serverPara.eq_def] at h
  split at h
  · cases h
  · cases tokenPara_rest h
  · cases tokenPara_rest h
    exact (List.suffix_cons _ _).trans (List.suffix_cons _ _)
  · exact wordPara_suffix h
  · exact wordPara_suffix h
  · split at h
    · cases h
      exact (List.suffix_cons _ _).trans ((List.suffix_cons _ _).trans
        ((List.suffix_cons _ _).trans (List.suffix_cons _ _)))
    · exact wordPara_suffix h

/-- What the loop of a parser splits is the end of the line. -/
theorem linePara_suffix {rest : List UInt8} {paramcount : Int}
    (h : s.linePara server cptr buffer = some (paramcount, some rest)) : rest <:+ buffer := by
  rw [linePara] at h
  split at h
  · cases h
  · split at h
    · cases h
    · next hprefix =>
        cases server with
        | true => exact (serverPara_suffix h).trans (serverPrefix_suffix hprefix)
        | false =>
            simp only [Bool.false_eq_true, if_false] at h
            split at h
            · cases h
            · exact (wordPara_suffix h).trans (userPrefix_suffix hprefix)

theorem firstPara_part {p : List UInt8} (h : s.firstPara server cptr buffer = some p) :
    p <:+: buffer := by
  rw [firstPara] at h
  obtain ⟨⟨paramcount, rest⟩, hline, h⟩ := Option.bind_eq_some_iff.mp h
  obtain ⟨rest, rfl, h⟩ := Option.bind_eq_some_iff.mp h
  exact (splitPara_part _ h).trans (linePara_suffix hline).isInfix

theorem prefixId_part {id : List UInt8} (h : prefixId server buffer = some id) :
    id <:+: buffer := by
  rw [prefixId] at h
  split at h
  · next ch hs =>
      split at h
      · cases h
        have hword := firstWord_start (0x21 :: ch)
        exact (List.tail_suffix _).isInfix.trans ((List.take_prefix _ _).isInfix.trans
          (hword.isInfix.trans (hs ▸ (skipSpaces_suffix buffer).isInfix)))
      · cases h
  · cases h

/-- Ids are parts of the line. -/
theorem mem_lineIds {id : List UInt8} (h : id ∈ s.lineIds server cptr buffer) : id <:+: buffer := by
  rw [lineIds] at h
  rcases List.mem_append.mp h with h | h
  · split at h
    · exact absurd h List.not_mem_nil
    · exact prefixId_part (Option.mem_toList.mp h)
  · split at h
    · next tail hpara =>
        rw [List.mem_singleton.mp h]
        exact (List.suffix_cons _ tail).isInfix.trans (firstPara_part hpara)
    · exact absurd h List.not_mem_nil

/-! ## What the parsers look up -/

section Lookups

variable {s : ParseSt} {server : Bool} {cptr source : Nat} {para0 buffer : List UInt8} {ids : IdSt}

/-- What the loop puts in `para[1]`, if it is reached. -/
def splitFirst (x : Option (Int × Option (List UInt8))) : Option (List UInt8) :=
  x.bind fun (paramcount, rest) =>
    rest.bind fun rest => (splitPara (min paramcount maxPara - 1).toNat rest).head?

/-- The id in this parameter is looked up alike in other tables. -/
def FoundAlike (s : ParseSt) (ids : IdSt) (first : Option (List UInt8)) : Prop :=
  ∀ id, first = some (0x21 :: id) → ids.findByBase64Id id = s.ids.findByBase64Id id

theorem splitFirst_some (paramcount : Int) (rest : Option (List UInt8)) :
    splitFirst (some (paramcount, rest)) =
      ((rest.map (splitPara (min paramcount maxPara - 1).toNat)).getD []).head? := by
  cases rest <;> rfl

theorem paraOf_withIds {params : List (List UInt8)} (h : s.FoundAlike ids params.head?) :
    { s with ids := ids }.paraOf para0 params = s.paraOf para0 params := by
  rw [paraOf.eq_def, paraOf.eq_def]
  split
  · rfl
  · split
    · next id _ _ => rw [h id rfl]
    · rfl

theorem runMessage_withIds {msg : Nat} (hsmall : s.parameters msg < 2147483648)
    {rest : Option (List UInt8)}
    (h : s.FoundAlike ids (splitFirst (some (s.paramcount msg, rest)))) :
    { s with ids := ids }.runMessage cptr msg source para0 rest =
      s.runMessage cptr msg source para0 rest := by
  have hcount : s.paramcount msg = s.parameters msg :=
    Int.bmod_eq_of_le_mul_two (by rw [UInt32.size]; omega) (by rw [UInt32.size]; omega)
  have hmore : (min (s.paramcount msg) maxPara - 1).toNat = min (s.parameters msg) maxPara - 1 := by
    omega
  rw [splitFirst_some, hmore] at h
  rw [runMessage, runMessage]
  simp only [paraOf_withIds h]
  rfl

theorem runToken_withIds (hsmall : ∀ msg, s.parameters msg < 2147483648) (ch : UInt8)
    {rest : Option (List UInt8)} (h : s.FoundAlike ids (splitFirst (s.tokenPara ch rest))) :
    { s with ids := ids }.runToken cptr source para0 ch rest =
      s.runToken cptr source para0 ch rest := by
  rw [tokenPara] at h
  rw [runToken, runToken]
  cases hcmd : s.tok1Cmd ch with
  | none => rfl
  | some cmd =>
      cases hmsg : s.tok1Msg ch with
      | none => rfl
      | some msg =>
          rw [hcmd, hmsg] at h
          exact runMessage_withIds (hsmall msg) h

theorem runCommand_withIds (hsmall : ∀ msg, s.parameters msg < 2147483648) {ch : List UInt8}
    (h : s.FoundAlike ids (splitFirst (s.wordPara ch))) :
    { s with ids := ids }.runCommand cptr source para0 ch = s.runCommand cptr source para0 ch := by
  rw [wordPara] at h
  rw [runCommand, runCommand]
  cases hmsg : s.commands.hashParse (cutCommand ch).1 with
  | error e => rfl
  | ok msg =>
      cases msg with
      | none => rfl
      | some msg =>
          rw [hmsg] at h
          exact runMessage_withIds (hsmall msg) h

theorem serverCommand_withIds (hsmall : ∀ msg, s.parameters msg < 2147483648) {ch : List UInt8}
    (h : s.FoundAlike ids (splitFirst (s.serverPara ch))) :
    { s with ids := ids }.serverCommand cptr source para0 ch =
      s.serverCommand cptr source para0 ch := by
  revert h
  rw [serverPara.eq_def, serverCommand.eq_def, serverCommand.eq_def]
  split
  · exact fun _ => rfl
  · exact runToken_withIds hsmall _
  · exact runToken_withIds hsmall _
  · exact runCommand_withIds hsmall
  · exact runCommand_withIds hsmall
  · split
    · intro h
      rw [splitFirst_some] at h
      rw [runNumeric, runNumeric, paraOf_withIds]
      exact h
    · exact runCommand_withIds hsmall

theorem serverPrefix_withIds
    (h : ∀ id, prefixId true buffer = some id → ids.findByBase64Id id = s.ids.findByBase64Id id) :
    { s with ids := ids }.serverPrefix cptr buffer = s.serverPrefix cptr buffer := by
  rw [serverPrefix, serverPrefix]
  split
  · rfl
  · next ch hs =>
      rw [prefixId, hs] at h
      rw [idPrefix, idPrefix]
      simp only
      rw [h _ rfl]
      rfl
  · rfl

theorem serverParse_withIds (hsmall : ∀ msg, s.parameters msg < 2147483648)
    (halive : ¬ ((s.client cptr).dead || (s.client cptr).closing) = true)
    (hid : ∀ id, prefixId true buffer = some id → ids.findByBase64Id id = s.ids.findByBase64Id id)
    (hfirst : s.FoundAlike ids (splitFirst (s.linePara true cptr buffer))) :
    { s with ids := ids }.serverParse cptr buffer = s.serverParse cptr buffer := by
  have hprefix : { s with ids := ids }.serverPrefix cptr buffer = s.serverPrefix cptr buffer :=
    serverPrefix_withIds hid
  rw [linePara, if_neg halive, if_pos rfl] at hfirst
  rw [serverParse, serverParse, if_neg halive, if_neg halive]
  cases hsource : s.serverPrefix cptr buffer with
  | error r =>
      rw [hsource] at hprefix
      rw [serverPrefix] at hsource hprefix
      dsimp only
      rw [hsource, hprefix]
  | ok r =>
      obtain ⟨source, para0, ch⟩ := r
      rw [hsource] at hprefix hfirst
      rw [serverPrefix] at hsource hprefix
      dsimp only
      rw [hsource, hprefix]
      exact serverCommand_withIds hsmall hfirst

theorem userParse_withIds (hsmall : ∀ msg, s.parameters msg < 2147483648)
    (halive : ¬ ((s.client cptr).dead || (s.client cptr).closing) = true)
    (hfirst : s.FoundAlike ids (splitFirst (s.linePara false cptr buffer))) :
    { s with ids := ids }.userParse cptr buffer = s.userParse cptr buffer := by
  have hprefix : { s with ids := ids }.userPrefix cptr buffer = s.userPrefix cptr buffer := rfl
  rw [linePara, if_neg halive, if_neg Bool.false_ne_true] at hfirst
  rw [userParse, userParse, if_neg halive, if_neg halive]
  cases hsource : s.userPrefix cptr buffer with
  | error r =>
      rw [hsource] at hprefix
      rw [userPrefix] at hsource hprefix
      dsimp only
      rw [hsource, hprefix]
  | ok r =>
      obtain ⟨source, para0, ch⟩ := r
      rw [hsource] at hprefix hfirst
      rw [userPrefix] at hsource hprefix
      dsimp only
      rw [hsource, hprefix]
      cases ch with
      | nil => rfl
      | cons c ch => exact runCommand_withIds hsmall hfirst

/-- A line is parsed alike wherever its ids are looked up alike. -/
theorem parse_withIds (hsmall : ∀ msg, s.parameters msg < 2147483648)
    (h : ∀ id ∈ s.lineIds server cptr buffer, ids.findByBase64Id id = s.ids.findByBase64Id id) :
    { s with ids := ids }.parse server cptr buffer = s.parse server cptr buffer := by
  have hfirst : s.FoundAlike ids (splitFirst (s.linePara server cptr buffer)) := by
    intro id hid
    have hpara : s.firstPara server cptr buffer = some (0x21 :: id) := hid
    refine h id ?_
    rw [lineIds, hpara]
    exact List.mem_append_right _ List.mem_cons_self
  rw [parse, parse]
  by_cases halive : ((s.client cptr).dead || (s.client cptr).closing) = true
  · rw [serverParse, serverParse, userParse, userParse, if_pos halive, if_pos halive, if_pos halive,
      if_pos halive]
  · cases server with
    | true =>
        refine serverParse_withIds hsmall halive (fun id hid => h id ?_) hfirst
        rw [lineIds, if_neg halive, hid]
        exact List.mem_append_left _ List.mem_cons_self
    | false => exact userParse_withIds hsmall halive hfirst

end Lookups

/-! ## Empty ids -/

/-- The id of the sender is empty just when the sender is a bare exclamation mark. -/
theorem nil_mem_prefixId_iff :
    prefixId server buffer = some [] ↔
      server = true ∧ firstWord (skipSpaces buffer) = [0x21] := by
  rw [prefixId]
  split
  · next ch hs =>
      have hword : firstWord (0x21 :: ch) = 0x21 :: firstWord ch :=
        List.takeWhile_cons_of_pos (by decide)
      cases server with
      | false => simp
      | true =>
          rw [hs, hword]
          simp [hostLen]
  · next hother =>
      refine iff_of_false (fun h => by cases h) fun h => ?_
      cases hs : skipSpaces buffer with
      | nil =>
          rw [hs] at h
          cases h.2
      | cons c ch =>
          rw [hs] at h
          have hprefix := firstWord_start (c :: ch)
          rw [h.2] at hprefix
          exact hother ch (by rw [hs, (List.cons_prefix_cons.mp hprefix).1])

/-- The line makes a parser look up an id that is empty. -/
def EmptyId (s : ParseSt) (server : Bool) (cptr : Nat) (buffer : List UInt8) : Prop :=
  (s.client cptr).dead = false ∧ (s.client cptr).closing = false ∧ server = true ∧
      firstWord (skipSpaces buffer) = [0x21] ∨
    s.firstPara server cptr buffer = some [0x21]

theorem nil_mem_lineIds_iff :
    [] ∈ s.lineIds server cptr buffer ↔ s.EmptyId server cptr buffer := by
  rw [lineIds, List.mem_append, EmptyId]
  refine or_congr ?_ ?_
  · cases (s.client cptr).dead <;> cases (s.client cptr).closing <;>
      simp [nil_mem_prefixId_iff]
  · cases s.firstPara server cptr buffer with
    | none => simp
    | some p =>
        split
        · next id hid =>
            cases hid
            simp [eq_comm]
        · next hother =>
            refine iff_of_false List.not_mem_nil fun h => ?_
            exact hother [] h

end ParseSt

/-- The value comes back, the buffer is enough, and nothing is read behind the end of the
ids of a line, whatever stands there; and these ids are all that the line is answered by. -/
structure Base64Safe (v : UInt32) (b : List UInt8) (s : ParseSt) (server : Bool) (cptr : Nat)
    (buffer : List UInt8) : Prop where
  roundTrip : base64dec (base64encR v b) = v
  inside : ∀ p ∈ (intToBase64R v).2, p.1 < 8
  reads : ∀ id ∈ s.lineIds server cptr buffer, ∀ behind,
    ∀ i ∈ base64Reads (id ++ 0 :: behind), i ≤ id.length
  ids : (∀ msg, s.parameters msg < 2147483648) → ∀ ids : IdSt,
    (∀ id ∈ s.lineIds server cptr buffer, ids.findByBase64Id id = s.ids.findByBase64Id id) →
      { s with ids := ids }.parse server cptr buffer = s.parse server cptr buffer

/-- Base64 is safe just when the sender and the first parameter are no bare exclamation
marks. -/
theorem base64_safe_iff (v : UInt32) {b : List UInt8} (hb : b.length = 8) (s : ParseSt)
    (server : Bool) (cptr : Nat) {buffer : List UInt8} (hline : 0 ∉ buffer) :
    Base64Safe v b s server cptr buffer ↔ ¬ s.EmptyId server cptr buffer := by
  have hreads : ∀ id ∈ s.lineIds server cptr buffer, ∀ behind : List UInt8,
      (∀ i ∈ base64Reads (id ++ 0 :: behind), i ≤ id.length) ↔ id ≠ [] := by
    intro id hid behind
    have hnul : 0 ∉ id := fun h => hline (ParseSt.mem_lineIds hid |>.subset h)
    have hcstr : cstr (id ++ 0 :: behind) = id := cstr_terminated hnul behind
    have hiff := base64Reads_iff (id ++ 0 :: behind)
    rwa [hcstr] at hiff
  rw [← ParseSt.nil_mem_lineIds_iff]
  constructor
  · intro h hnil
    exact (hreads [] hnil []).mp (h.reads [] hnil []) rfl
  · intro h
    refine ⟨base64dec_base64encR v hb, intToBase64R_lt v, fun id hid behind => ?_,
      fun hsmall _ => ParseSt.parse_withIds hsmall⟩
    refine (hreads id hid behind).mpr ?_
    rintro rfl
    exact h hid

/-- The line `!G001 001 x`, and the value 0. -/
theorem base64_safe_idLine :
    Base64Safe 0 (List.replicate 8 0) (oneLink [0x65, 0x6d, 0x67]) true 2
      (idLine [0x65, 0x6d, 0x67]) :=
  (base64_safe_iff 0 rfl _ true 2 (by decide)).mpr (by
    rintro (⟨-, -, -, h⟩ | h)
    · exact absurd h (by decide)
    · exact absurd h (by decide))

/-- The line `! 001 x` makes `base64_to_int` read on behind the NUL. -/
theorem base64_reads_on :
    ¬ ∀ (v : UInt32) (b : List UInt8) (s : ParseSt) (server : Bool) (cptr : Nat)
      (buffer : List UInt8), b.length = 8 → 0 ∉ buffer → Base64Safe v b s server cptr buffer := by
  intro h
  have hsafe := h 0 (List.replicate 8 0) (oneLink [0x65, 0x6d, 0x67]) true 2
    [0x21, 0x20, 0x30, 0x30, 0x31, 0x20, 0x78] rfl (by decide)
  have hnil : [] ∈ (oneLink [0x65, 0x6d, 0x67]).lineIds true 2
      [0x21, 0x20, 0x30, 0x30, 0x31, 0x20, 0x78] :=
    ParseSt.nil_mem_lineIds_iff.mpr (.inl ⟨rfl, rfl, rfl, by decide⟩)
  exact absurd (hsafe.reads [] hnil [] 1 (by decide)) (by decide)

end TrIrcd
