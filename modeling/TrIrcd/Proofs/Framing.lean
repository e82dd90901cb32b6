import TrIrcd.Proofs.OutgoingBlocks

/-!
# The line end of a message

`send_message` looks for the last byte of a message that is not a line end, and
writes the line end behind it. Both are done on indices: the loop goes down
from `msg[len]`, which is the NUL, and what is cut off is cut by lowering `len`
once more. On the bytes that is `finishLine` (`finishLine_eq_written`), unless
there is no byte to stop at: then the loop reads `msg[-1]`, and this is the only
message that is not framed as it should be (`queueMessage_framed_iff`).
-/

namespace TrIrcd

open Function (update)
open TrIrcd.Lib

variable {msg : List UInt8}

/-! ## The loop over line ends -/

/-- The loop stops at the last byte of what is left without the line ends. -/
theorem chopLineEnds_eq (len : Nat) (h : len < msg.length) :
    chopLineEnds msg len =
      if (msg.take (len + 1)).rdropWhile isChopped = [] then none
      else some (((msg.take (len + 1)).rdropWhile isChopped).length - 1) := by
  induction len with
  | zero =>
      have htake : msg.take (0 + 1) = [] ++ [msg.getD 0 0] := by
        rw [List.take_add_one, List.take_zero, List.getD_eq_getElem?_getD,
          List.getElem?_eq_getElem h]
        rfl
      rw [chopLineEnds, htake, List.rdropWhile_concat]
      split
      · rfl
      · rfl
  | succ len ih =>
      have htake : msg.take (len + 1 + 1) = msg.take (len + 1) ++ [msg.getD (len + 1) 0] := by
        rw [List.take_add_one, List.getD_eq_getElem?_getD, List.getElem?_eq_getElem h]
        rfl
      rw [chopLineEnds, htake, List.rdropWhile_concat]
      split
      · exact ih (by omega)
      · rw [if_neg (by simp), List.length_append, List.length_take, min_eq_left (by omega)]
        rfl

/-- It starts at the NUL, which is one of the bytes that are chopped. -/
theorem chopLineEnds_message (msg : List UInt8) :
    chopLineEnds (msg ++ [0]) msg.length =
      if msg.rdropWhile isChopped = [] then none
      else some ((msg.rdropWhile isChopped).length - 1) := by
  rw [chopLineEnds_eq _ (by simp), List.take_of_length_le (by simp),
    List.rdropWhile_concat_pos _ _ _ (by decide)]

/-- A message without NUL is chopped of its line ends only. -/
theorem rdropWhile_isChopped (h : 0 ∉ msg) : msg.rdropWhile isChopped = msg.rdropWhile isEol := by
  induction msg using List.reverseRecOn with
  | nil => rfl
  | append_singleton msg c ih =>
      have hc : c ≠ 0 := fun hc => h (by simp [hc])
      have hchop : isChopped c = isEol c := by simp [isChopped, hc]
      rw [List.rdropWhile_concat, List.rdropWhile_concat, hchop,
        ih fun hz => h (List.mem_append_left _ hz)]

theorem rdropWhile_isEol_ne_nil_iff :
    msg.rdropWhile isEol ≠ [] ↔ ∃ c ∈ msg, isEol c = false := by
  rw [Ne, List.rdropWhile_eq_nil_iff]
  simp

/-! ## The line end -/

/-- The bytes below `len`. -/
def bytesBelow (msg : Nat → UInt8) (len : Nat) : List UInt8 := (List.range len).map msg

theorem bytesBelow_succ (msg : Nat → UInt8) (len : Nat) :
    bytesBelow msg (len + 1) = bytesBelow msg len ++ [msg len] := by
  simp [bytesBelow, List.range_succ]

/-- A byte that is written at the end or behind it is not one of those below. -/
theorem bytesBelow_update (msg : Nat → UInt8) {len i : Nat} (c : UInt8) (h : len ≤ i) :
    bytesBelow (update msg i c) len = bytesBelow msg len := by
  refine List.map_congr_left fun j hj => Function.update_of_ne ?_ ..
  have := List.mem_range.mp hj
  omega

theorem bytesBelow_getD (text : List UInt8) {len : Nat} (h : len ≤ text.length) :
    bytesBelow (fun i => text.getD i 0) len = text.take len := by
  induction len with
  | zero => rfl
  | succ len ih =>
      rw [bytesBelow_succ, ih (by omega), List.take_add_one, List.getD_eq_getElem?_getD,
        List.getElem?_eq_getElem h]
      rfl

/-- What stands below the new length is the text, cut, and the line end. -/
theorem appendLineEnd_bytes (server : Bool) {text : List UInt8} (behind : List UInt8)
    (h : text ≠ []) :
    let r := appendLineEnd server (fun i => (text ++ behind).getD i 0) (text.length - 1)
    bytesBelow r.1 r.2 =
      if server then text.take 511 ++ [0x0a] else text.take 510 ++ [0x0d, 0x0a] := by
  have hpos := List.length_pos_of_ne_nil h
  have hcut : ∀ n, 0 < n → ∀ len, len = (if text.length - 1 > n - 1 then n - 1
      else text.length - 1) →
      bytesBelow (fun i => (text ++ behind).getD i 0) (len + 1) = text.take n := by
    intro n hn len hlen
    have hle : len + 1 ≤ text.length := by split at hlen <;> omega
    rw [bytesBelow_getD _ (by rw [List.length_append]; omega), List.take_append_of_le_length hle]
    split at hlen
    · rw [hlen]
      congr 1
      omega
    · rw [List.take_of_length_le (by omega : text.length ≤ len + 1),
        List.take_of_length_le (by omega : text.length ≤ n)]
  cases server with
  | true =>
      simp only [appendLineEnd, if_true]
      generalize hlen : (if text.length - 1 > 510 then 510 else text.length - 1) = len
      rw [bytesBelow_succ, bytesBelow_update _ _ (by omega), bytesBelow_update _ _ (by omega),
        hcut 511 (by omega) len hlen.symm, Function.update_of_ne (by omega),
        Function.update_self]
  | false =>
      simp only [appendLineEnd, Bool.false_eq_true, if_false]
      generalize hlen : (if text.length - 1 > 509 then 509 else text.length - 1) = len
      rw [bytesBelow_succ, bytesBelow_succ, bytesBelow_update _ _ (by omega),
        bytesBelow_update _ _ (by omega), bytesBelow_update _ _ (by omega),
        hcut 510 (by omega) len hlen.symm, List.append_assoc]
      simp

/-- The line of a message. -/
def framed (server : Bool) (msg : List UInt8) : List UInt8 :=
  if server then (msg.rdropWhile isEol).take 511 ++ [0x0a]
  else (msg.rdropWhile isEol).take 510 ++ [0x0d, 0x0a]

theorem framed_length_le (server : Bool) (msg : List UInt8) :
    (framed server msg).length ≤ 512 := by
  rw [framed]
  split
  · rw [List.length_append, List.length_take]
    have := Nat.min_le_left 511 (msg.rdropWhile isEol).length
    simp only [List.length_singleton]
    omega
  · rw [List.length_append, List.length_take]
    have := Nat.min_le_left 510 (msg.rdropWhile isEol).length
    simp only [List.length_cons, List.length_nil]
    omega

namespace OutLink

variable {ζ : Type} {A : Allocator} {deflate : Deflate ζ} {link link' : OutLink ζ}

/-- `finishLine` is what the loop and the writes leave below the new length. -/
theorem finishLine_eq_written (link : OutLink ζ) (msg : List UInt8)
    (h : link.isForeigner = false) :
    link.finishLine msg =
      (chopLineEnds (msg ++ [0]) msg.length).map fun len =>
        let r := appendLineEnd (link.isServer || link.isNegoServer)
          (fun i => (msg ++ [0]).getD i 0) len
        bytesBelow r.1 r.2 := by
  rw [finishLine, chopLineEnds_message]
  simp only [h, Bool.false_eq_true, if_false]
  obtain ⟨ends, hmsg⟩ := msg.rdropWhile_prefix isChopped
  generalize msg.rdropWhile isChopped = text at *
  by_cases htext : text = []
  · rw [if_pos htext, if_pos htext]
    rfl
  · have hbytes := appendLineEnd_bytes (link.isServer || link.isNegoServer) (ends ++ [0]) htext
    rw [← List.append_assoc, hmsg] at hbytes
    rw [if_neg htext, if_neg htext, Option.map_some, hbytes]
    simp only [Bool.or_eq_true]
    split
    · rfl
    · rfl

/-- A link that is open, has room in its queue, and neither translates nor
compresses nor encrypts. -/
structure Plain (link : OutLink ζ) : Prop where
  takes : link.Takes
  room : link.sendQ.len ≤ link.sendqlen
  isForeigner : link.isForeigner = false
  zipOut : link.zipOut = false
  isRc4Out : link.isRc4Out = false

theorem encode_plain (deflate : Deflate ζ) (h : link.Plain) (line : List UInt8) :
    link.encode deflate line = (link, some line) := by
  simp [encode, h.zipOut, h.isRc4Out]

theorem finishLine_framed (h : link.isForeigner = false) (hnul : 0 ∉ msg)
    (htext : ∃ c ∈ msg, isEol c = false) :
    link.finishLine msg = some (framed (link.isServer || link.isNegoServer) msg) := by
  rw [finishLine]
  simp only [h, Bool.false_eq_true, if_false, rdropWhile_isChopped hnul,
    if_neg (rdropWhile_isEol_ne_nil_iff.mpr htext), framed, Bool.or_eq_true]
  split
  · rfl
  · rfl

/-- The message is read inside its memory, and queued as one framed line if
there is anything in it to queue. -/
def Frames (A : Allocator) (deflate : Deflate ζ) (link : OutLink ζ) (msg : List UInt8) : Prop :=
  let line := framed (link.isServer || link.isNegoServer) msg
  chopLineEnds (msg ++ [0]) msg.length ≠ none ∧
    ((∃ c ∈ msg, isEol c = false) →
      line.length ≤ 512 ∧ ∃ link', link.queueMessage A deflate msg = .ok (link', line, true) ∧
        link'.bufs.Idle ∧ link.gained link' = line)

theorem queueMessage_framed (A : Allocator) (deflate : Deflate ζ) (hidle : link.bufs.Idle)
    (h : link.Plain) (hnul : 0 ∉ msg) (htext : ∃ c ∈ msg, isEol c = false) :
    ∃ link', link.queueMessage A deflate msg =
        .ok (link', framed (link.isServer || link.isNegoServer) msg, true) ∧
      link'.bufs.Idle ∧ link.gained link' = framed (link.isServer || link.isNegoServer) msg := by
  have hline := finishLine_framed h.isForeigner hnul htext
  have hle := framed_length_le (link.isServer || link.isNegoServer) msg
  have hne : framed (link.isServer || link.isNegoServer) msg ≠ [] := by
    rw [framed]
    split <;> simp
  generalize framed (link.isServer || link.isNegoServer) msg = line at *
  obtain ⟨link', hok, hidle', -, hgain⟩ := enqueue_gained A line hidle
  refine ⟨link', ?_, hidle', hgain.trans (List.take_of_length_le hle)⟩
  rw [queueMessage, if_neg h.takes]
  simp only [hline, encode_plain deflate h, if_neg hne, if_neg (not_lt.mpr h.room), hok]
  rfl

end OutLink

/-- A plain link frames a message exactly if there is a byte in it that is not
a line end. -/
theorem queueMessage_framed_iff {ζ : Type} (A : Allocator) (deflate : Deflate ζ)
    (link : OutLink ζ) (hidle : link.bufs.Idle) (hplain : link.Plain) (msg : List UInt8)
    (hnul : 0 ∉ msg) :
    link.Frames A deflate msg ↔ ∃ c ∈ msg, isEol c = false := by
  have hloop := chopLineEnds_message msg
  rw [rdropWhile_isChopped hnul] at hloop
  constructor
  · rintro ⟨hstop, -⟩
    rw [← rdropWhile_isEol_ne_nil_iff]
    intro hnil
    rw [if_pos hnil] at hloop
    exact hstop hloop
  · intro htext
    rw [if_neg (rdropWhile_isEol_ne_nil_iff.mpr htext)] at hloop
    refine ⟨by rw [hloop]; exact Option.some_ne_none _, fun _ => ⟨framed_length_le _ _, ?_⟩⟩
    exact OutLink.queueMessage_framed A deflate hidle hplain hnul htext

/-- A client that is not a server. -/
def plainLink : OutLink Unit := { zipLink () with isServer := false, zipOut := false }

/-- A message that comes with its line end. -/
theorem queueMessage_framed_pong :
    plainLink.Frames .bump storing [0x50, 0x4f, 0x4e, 0x47, 0x0d, 0x0a] :=
  (queueMessage_framed_iff .bump storing plainLink LineSt.init_idle
    ⟨by simp [OutLink.Takes, plainLink, zipLink], by decide, rfl, rfl, rfl⟩ _ (by decide)).mpr
    ⟨0x50, by decide, rfl⟩

/-- An empty line runs off the start of its memory. -/
theorem queueMessage_blank :
    chopLineEnds ([0x0d, 0x0a] ++ [0]) 2 = none ∧
      ¬plainLink.Frames .bump storing [0x0d, 0x0a] := by
  have hnone : chopLineEnds ([0x0d, 0x0a] ++ [0]) 2 = none := by decide
  exact ⟨hnone, fun h => h.1 hnone⟩

end TrIrcd
