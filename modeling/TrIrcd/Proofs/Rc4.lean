import Mathlib.Logic.Equiv.Basic
import TrIrcd.Proofs.LinkLines
import TrIrcd.Src.Link

/-!
# Both ends of an encrypted link agree

What the cipher adds to a stream depends on the state and on how far the stream
has come, not on the bytes or the chunks. So the loop that encrypts and the one
that decrypts, which are the same up to the width of their variables
(`rc4ProcessStreamToBuf_eq`), go through the same states, and the second takes
off what the first has put on.

Every turn swaps two places of `mstate`, which therefore stays a permutation. A
key that is not empty is never read behind its end.
-/

namespace TrIrcd

open Function (update)

/-! ## The two loops -/

/-- A mask of eight bits is a byte, whatever the width. -/
theorem and_low_byte (v : UInt32) : v &&& 0xff = v.toUInt8.toUInt32 := by
  apply UInt32.toNat_inj.mp
  rw [UInt32.toNat_and, UInt8.toNat_toUInt32, UInt32.toNat_toUInt8]
  exact Nat.and_two_pow_sub_one_eq_mod v.toNat 8

theorem rc4ToBufLoop_eq (rc4 : Rc4State) (istring : List UInt8) :
    rc4ToBufLoop rc4.mstate rc4.x.toUInt32 rc4.y.toUInt32 istring =
      ((rc4ProcessStream rc4 istring).1.mstate, (rc4ProcessStream rc4 istring).1.x.toUInt32,
        (rc4ProcessStream rc4 istring).1.y.toUInt32, (rc4ProcessStream rc4 istring).2) := by
  induction istring generalizing rc4 with
  | nil => rfl
  | cons c istring ih =>
      have hx : (rc4.x.toUInt32 + 1) &&& 0xff = (rc4.x + 1).toUInt32 := by
        rw [and_low_byte, UInt32.toUInt8_add, UInt8.toUInt8_toUInt32]
        rfl
      have hbyte : ∀ a b : UInt8, (a.toUInt32 + b.toUInt32) &&& 0xff = (a + b).toUInt32 := by
        intro a b
        rw [and_low_byte, UInt32.toUInt8_add, UInt8.toUInt8_toUInt32, UInt8.toUInt8_toUInt32]
      simp only [rc4ToBufLoop, rc4ProcessStream, hx, hbyte, UInt8.toUInt8_toUInt32]
      have hnext := ih ⟨update (update rc4.mstate (rc4.x + 1)
        (rc4.mstate (rc4.y + rc4.mstate (rc4.x + 1)))) (rc4.y + rc4.mstate (rc4.x + 1))
          (rc4.mstate (rc4.x + 1)), rc4.x + 1, rc4.y + rc4.mstate (rc4.x + 1)⟩
      simp only [hnext]

/-- Encrypting to a buffer is encrypting in place. -/
theorem rc4ProcessStreamToBuf_eq (rc4 : Rc4State) (istring : List UInt8) :
    rc4ProcessStreamToBuf rc4 istring = rc4ProcessStream rc4 istring := by
  rw [rc4ProcessStreamToBuf, rc4ToBufLoop_eq]
  simp only [UInt8.toUInt8_toUInt32]

/-- The other end is in the same state, and has the text. -/
theorem rc4ProcessStream_twice (rc4 : Rc4State) (text : List UInt8) :
    rc4ProcessStream rc4 (rc4ProcessStream rc4 text).2 =
      ((rc4ProcessStream rc4 text).1, text) := by
  induction text generalizing rc4 with
  | nil => rfl
  | cons c text ih =>
      simp only [rc4ProcessStream, ih, UInt8.xor_assoc, UInt8.xor_self, UInt8.xor_zero]

/-! ## Chunks -/

/-- A stream in chunks is processed as the whole stream is. -/
theorem rc4Chunks_eq (rc4 : Rc4State) (chunks : List (List UInt8)) :
    rc4Chunks rc4ProcessStream rc4 chunks = rc4ProcessStream rc4 chunks.flatten := by
  induction chunks generalizing rc4 with
  | nil => rfl
  | cons chunk chunks ih =>
      rw [List.flatten_cons, rc4ProcessStream_append]
      simp only [rc4Chunks, ih]

theorem rc4Chunks_toBuf (rc4 : Rc4State) (chunks : List (List UInt8)) :
    rc4Chunks rc4ProcessStreamToBuf rc4 chunks = rc4ProcessStream rc4 chunks.flatten := by
  rw [← rc4Chunks_eq]
  exact congrArg (fun process => rc4Chunks process rc4 chunks)
    (funext fun rc4 => funext (rc4ProcessStreamToBuf_eq rc4))

/-! ## The permutation -/

/-- Two places of a permutation are swapped. -/
theorem bijective_swap {s : UInt8 → UInt8} (h : s.Bijective) (x y : UInt8) :
    (update (update s x (s y)) y (s x)).Bijective := by
  rw [← Equiv.comp_swap_eq_update]
  exact h.comp (Equiv.bijective _)

theorem bijective_processStream {rc4 : Rc4State} (h : rc4.mstate.Bijective)
    (istring : List UInt8) : (rc4ProcessStream rc4 istring).1.mstate.Bijective := by
  induction istring generalizing rc4 with
  | nil => exact h
  | cons c istring ih =>
      rw [rc4ProcessStream]
      exact ih (bijective_swap h _ _)

/-- The key is read inside, and the state is a permutation. -/
structure Rc4Init.Good (key : List UInt8) (st : Rc4Init) : Prop where
  lt : st.idx1.toNat < key.length
  bijective : st.mstate.Bijective

theorem rc4InitTurn_good {key : List UInt8} {st : Rc4Init} (h : st.Good key) (i : Nat) :
    ∃ st', rc4InitTurn key st i = some st' ∧ st'.Good key := by
  rw [rc4InitTurn, List.getElem?_eq_getElem h.lt]
  refine ⟨_, rfl, ?_, bijective_swap h.bijective _ _⟩
  dsimp only
  split
  · exact Nat.lt_of_le_of_lt (Nat.zero_le _) h.lt
  · next hlt => exact Nat.lt_of_not_le hlt

theorem rc4InitTurns_good {key : List UInt8} (is : List Nat) {st : Rc4Init} (h : st.Good key) :
    ∃ st', is.foldlM (rc4InitTurn key) st = some st' ∧ st'.Good key := by
  induction is generalizing st with
  | nil => exact ⟨st, rfl, h⟩
  | cons i is ih =>
      obtain ⟨st₁, hturn, hgood⟩ := rc4InitTurn_good h i
      obtain ⟨st', hrest, hgood'⟩ := ih hgood
      refine ⟨st', ?_, hgood'⟩
      rw [List.foldlM_cons, hturn]
      exact hrest

theorem rc4Initstate_good {key : List UInt8} (hkey : key ≠ []) :
    ∃ rc4, rc4Initstate key = some rc4 ∧ rc4.mstate.Bijective := by
  have hinit : Rc4Init.Good key ⟨id, 0, 0⟩ :=
    ⟨List.length_pos_iff.mpr hkey, Function.bijective_id⟩
  obtain ⟨st, hst, hgood⟩ := rc4InitTurns_good (List.range 256) hinit
  refine ⟨⟨st.mstate, 0, 0⟩, ?_, hgood.bijective⟩
  rw [rc4Initstate, hst]
  rfl

/-- What is encrypted in chunks and decrypted in others is what it was, and the
states are permutations all the way. -/
theorem rc4_round_trip (key : List UInt8) (hkey : key ≠ []) :
    ∃ rc4, rc4Initstate key = some rc4 ∧
      (∀ sent read : List (List UInt8),
        read.flatten = (rc4Chunks rc4ProcessStreamToBuf rc4 sent).2 →
        (rc4Chunks rc4ProcessStream rc4 read).2 = sent.flatten) ∧
      ∀ chunks, (rc4Chunks rc4ProcessStreamToBuf rc4 chunks).1.mstate.Bijective ∧
        (rc4Chunks rc4ProcessStream rc4 chunks).1.mstate.Bijective := by
  obtain ⟨rc4, hinit, hbij⟩ := rc4Initstate_good hkey
  refine ⟨rc4, hinit, fun sent read hread => ?_, fun chunks => ?_⟩
  · rw [rc4Chunks_eq, hread, rc4Chunks_toBuf, rc4ProcessStream_twice]
  · rw [rc4Chunks_toBuf, rc4Chunks_eq]
    exact ⟨bijective_processStream hbij _, bijective_processStream hbij _⟩

/-- Two chunks are sent and three are read. -/
theorem rc4_round_trip_cut : ∃ rc4, rc4Initstate [0x6b, 0x65, 0x79] = some rc4 ∧
    ∀ a b c, [a, b, c] = (rc4Chunks rc4ProcessStreamToBuf rc4 [[0x68, 0x65], [0x6c]]).2 →
      (rc4Chunks rc4ProcessStream rc4 [[a], [b], [c]]).2 = [0x68, 0x65, 0x6c] := by
  obtain ⟨rc4, hinit, hread, -⟩ := rc4_round_trip [0x6b, 0x65, 0x79] (by decide)
  exact ⟨rc4, hinit, fun a b c h => hread [[0x68, 0x65], [0x6c]] [[a], [b], [c]] h⟩

end TrIrcd
