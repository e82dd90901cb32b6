import TrIrcd.Lib.Run
import TrIrcd.Src.Zlink
import TrIrcd.Proofs.LinkLines

/-!
# How much `restbuf` carries over

`server_dopacket` puts a packet behind the tail and clears what is behind it
up to `READBUF_SIZE * 4`, and it compares neither with that size. The sum is
right as long as every packet that meets a tail fits behind it (`ChunksFit`).
One that does not makes the size of the `memset` wrap, so the run ends there:
five reads without a line end are enough. Where `memcpy` copies from the front
that is all; where it is undefined between places that overlap, a run also ends
with a tail that lies across the front of `restbuf` (`ChunksKept`).
-/

namespace TrIrcd

open TrIrcd.Lib

namespace Link

variable {σ : Type} (M : Memcpy) (P : LinkParser σ)

/-- The arithmetic in front of the loop, when `chunk` comes behind the tail. -/
structure Safe (cptr : LinkClient σ) (chunk : List UInt8) : Prop where
  append : cptr.waitlen + chunk.length ≤ readbufSize * 4
  clear : chunk.length + cptr.waitlen +
    (clearSize (chunk.length + cptr.waitlen)).toNat = readbufSize * 4

/-- In every state of the run `waitlen` is the length of the tail, and a chunk
that is appended is appended safely. -/
def CarriesSafely (cptr : LinkClient σ) (r : LinkWorld σ × List UInt8)
    (chunks : List (List UInt8)) : Prop :=
  ∀ seen rest, chunks = seen ++ rest →
    ∃ cptr', run (serverDopacket M P) cptr seen = .ok cptr' ∧
      cptr'.waitlen = (seen.foldl (feedPacket P) r).2.length ∧
      ∀ chunk ∈ rest.head?, 0 < cptr'.waitlen → Safe cptr' chunk

/-- Every chunk that meets a tail fits behind it. -/
def ChunksFit : LinkWorld σ × List UInt8 → List (List UInt8) → Prop
  | _, [] => True
  | r, chunk :: chunks =>
      (r.2 = [] ∨ r.2.length + chunk.length ≤ readbufSize * 4) ∧
        ChunksFit (feedPacket P r chunk) chunks

/-- The tail that a chunk behind a tail leaves can be copied to where it waits. -/
def ChunksKept : LinkWorld σ × List UInt8 → List (List UInt8) → Prop
  | _, [] => True
  | r, chunk :: chunks =>
      (r.2 = [] ∨ M.Moves (r.2.length + chunk.length) (feedPacket P r chunk).2.length) ∧
        ChunksKept (feedPacket P r chunk) chunks

variable {M} {P} {cptr : LinkClient σ} {r : LinkWorld σ × List UInt8}

theorem Carries.safe_iff (h : Carries cptr r) (chunk : List UInt8) :
    (0 < cptr.waitlen → Safe cptr chunk) ↔
      r.2 = [] ∨ r.2.length + chunk.length ≤ readbufSize * 4 := by
  have hroom : readbufSize * 4 ≤ restbufSize := by decide
  have hwait := h.waiting.waitlen
  rcases eq_or_ne r.2 [] with hnil | hne
  · simp [hwait, hnil]
  · have hpos := List.length_pos_of_ne_nil hne
    constructor
    · intro hsafe
      have happend := (hsafe (by omega)).append
      exact .inr (by omega)
    · rintro (hnil | hfit) _
      · exact absurd hnil hne
      · refine ⟨by omega, ?_⟩
        rw [toNat_clearSize (by omega), if_pos (by omega)]
        omega

/-- A chunk of a link is never longer than `restbuf`. -/
theorem room_of_fit {chunk : List UInt8} (hlen : chunk.length ≤ unzipBufSize)
    (hfit : r.2 = [] ∨ r.2.length + chunk.length ≤ readbufSize * 4)
    (hkept : r.2 = [] ∨ M.Moves (r.2.length + chunk.length) (feedPacket P r chunk).2.length) :
    Room P M r chunk := by
  have hsize : unzipBufSize ≤ restbufSize := by decide
  refine ⟨fun hnil => ?_, fun hne => hfit.resolve_left hne,
    fun hne => hkept.resolve_left hne⟩
  have hle := length_feed_le P (r.2 ++ chunk).length r.1 (r.2 ++ chunk)
  rw [hnil, List.nil_append] at hle
  rw [feedPacket, hnil, List.nil_append]
  omega

theorem carriesSafely_iff :
    ∀ (chunks : List (List UInt8)) {cptr : LinkClient σ} {r : LinkWorld σ × List UInt8},
      Carries cptr r → (∀ chunk ∈ chunks, chunk.length ≤ unzipBufSize) →
      (CarriesSafely M P cptr r chunks ↔ ChunksFit P r chunks ∧ ChunksKept M P r chunks) := by
  intro chunks
  induction chunks with
  | nil =>
      intro cptr r h _
      refine iff_of_true (fun seen rest hsplit => ?_) ⟨trivial, trivial⟩
      obtain ⟨rfl, rfl⟩ := List.append_eq_nil_iff.mp hsplit.symm
      exact ⟨cptr, rfl, h.waiting.waitlen, by simp⟩
  | cons chunk chunks ih =>
      intro cptr r h hlen
      have hchunk := hlen chunk (List.mem_cons_self ..)
      have hchunks := fun c hc => hlen c (List.mem_cons_of_mem _ hc)
      constructor
      · intro hsafe
        -- The first state of the run shows that the chunk fits, and the second that
        -- what it leaves is kept.
        obtain ⟨cptr', hrun, -, hhead⟩ := hsafe [] (chunk :: chunks) rfl
        cases hrun
        have hfit := (h.safe_iff chunk).mp (hhead chunk rfl)
        obtain ⟨cptr₁, hone, -, -⟩ := hsafe [chunk] chunks rfl
        rw [run_singleton] at hone
        have hroom : Room P M r chunk := by
          by_contra hno
          obtain ⟨e, he⟩ := serverDopacket_no_room h hno
          cases he.symm.trans hone
        obtain ⟨m, hstep, hcarries⟩ := serverDopacket_room h hroom
        have hrest : CarriesSafely M P m (feedPacket P r chunk) chunks := by
          intro seen rest hsplit
          obtain ⟨cptr', hrun, hwait, hhead⟩ := hsafe (chunk :: seen) rest (by simp [hsplit])
          obtain ⟨m', hm, hrun⟩ := run_cons_ok.mp hrun
          cases hstep.symm.trans hm
          exact ⟨cptr', hrun, hwait, hhead⟩
        obtain ⟨hfits, hkepts⟩ := (ih hcarries hchunks).mp hrest
        exact ⟨⟨hfit, hfits⟩, ⟨or_iff_not_imp_left.mpr hroom.moves, hkepts⟩⟩
      · rintro ⟨⟨hfit, hfits⟩, ⟨hkept, hkepts⟩⟩ seen rest hsplit
        obtain ⟨cptr₁, hstep, hcarries⟩ :=
          serverDopacket_room h (room_of_fit hchunk hfit hkept)
        cases seen with
        | nil =>
            cases hsplit
            refine ⟨cptr, rfl, h.waiting.waitlen, fun c hc => ?_⟩
            cases Option.some.inj hc
            exact (h.safe_iff chunk).mpr hfit
        | cons c seen =>
            obtain ⟨rfl, htail⟩ := List.cons_eq_cons.mp hsplit
            obtain ⟨cptr', hrun, hwait, hhead⟩ :=
              (ih hcarries hchunks).mpr ⟨hfits, hkepts⟩ seen rest htail
            exact ⟨cptr', run_cons_ok.mpr ⟨cptr₁, hstep, hrun⟩, hwait, hhead⟩

/-- A copy from the front keeps every tail. -/
theorem chunksKept_ascending :
    ∀ (chunks : List (List UInt8)) (r : LinkWorld σ × List UInt8),
      ChunksKept .ascending P r chunks
  | [], _ => trivial
  | _ :: chunks, _ => ⟨.inr (.inl rfl), chunksKept_ascending chunks _⟩

theorem carriesSafely_ascending_iff (h : Carries cptr r) {chunks : List (List UInt8)}
    (hlen : ∀ chunk ∈ chunks, chunk.length ≤ unzipBufSize) :
    CarriesSafely .ascending P cptr r chunks ↔ ChunksFit P r chunks := by
  rw [carriesSafely_iff chunks h hlen, and_iff_left (chunksKept_ascending chunks r)]

/-- For a client that nothing waits for, the arithmetic is right in every run
exactly when every chunk that meets a tail fits behind it and the tail that it
leaves can be kept. -/
theorem restbuf_carries_over (hwait : Waiting cptr []) {chunks : List (List UInt8)}
    (hlen : ∀ chunk ∈ chunks, chunk.length ≤ unzipBufSize) :
    CarriesSafely M P cptr (cptr.parsed, []) chunks ↔
      ChunksFit P (cptr.parsed, []) chunks ∧ ChunksKept M P (cptr.parsed, []) chunks :=
  carriesSafely_iff chunks ⟨hwait, rfl⟩ hlen

/-- Half a line, and the other half behind it. -/
theorem restbuf_carries_over_ping :
    let P : LinkParser Unit := ⟨fun _ _ => ((), 0), fun _ => false, fun _ => false⟩
    let cptr : LinkClient Unit := ⟨[], false, 0, (), ⟨id, 0, 0⟩⟩
    CarriesSafely .undefined P cptr (cptr.parsed, [])
      [[0x0d, 0x50, 0x49], [0x4e, 0x47, 0x0a]] := by
  intro P cptr
  refine (restbuf_carries_over (waiting_fresh rfl rfl) (by decide)).mpr ⟨?_, ?_⟩
  · exact ⟨.inl rfl, .inr (by decide), trivial⟩
  · exact ⟨.inl rfl, .inr (.inr (by decide)), trivial⟩

theorem feedPacket_text {w : LinkWorld σ} {t u : List UInt8}
    (ht : ∀ c ∈ t ++ u, isEol c = false) : feedPacket P (w, t) u = (w, t ++ u) := by
  rw [feedPacket]
  cases hn : (t ++ u).length with
  | zero =>
      rw [List.length_eq_zero_iff.mp hn]
      rfl
  | succ n => exact feed_text n w ht

/-- Five reads without a line end. -/
theorem restbuf_overrun :
    let P : LinkParser Unit := ⟨fun _ _ => ((), 0), fun _ => false, fun _ => false⟩
    let cptr : LinkClient Unit := ⟨[], false, 0, (), ⟨id, 0, 0⟩⟩
    let text := List.replicate readbufSize 0x41
    ¬CarriesSafely .ascending P cptr (cptr.parsed, []) [text, text, text, text, [0x41]] := by
  intro P cptr text
  have hA : ∀ n m : Nat, feedPacket P (cptr.parsed, List.replicate n 0x41)
      (List.replicate m 0x41) = (cptr.parsed, List.replicate (n + m) 0x41) := by
    intro n m
    rw [feedPacket_text, List.replicate_append_replicate]
    intro c hc
    rw [List.replicate_append_replicate] at hc
    rw [List.eq_of_mem_replicate hc]
    rfl
  have hlen : ∀ chunk ∈ [text, text, text, text, [0x41]], chunk.length ≤ unzipBufSize := by
    have hread : text.length ≤ unzipBufSize := by
      rw [List.length_replicate]
      decide
    simpa [unzipBufSize] using hread
  rw [carriesSafely_ascending_iff ⟨waiting_fresh rfl rfl, rfl⟩ hlen]
  rintro ⟨-, -, -, -, hfit, -⟩
  have h0 := hA 0 readbufSize
  rw [List.replicate_zero] at h0
  rw [h0, hA, hA, hA] at hfit
  rcases hfit with hnil | hfit
  · have hzero := congrArg List.length hnil
    rw [List.length_replicate] at hzero
    exact absurd hzero (by decide)
  · rw [List.length_replicate] at hfit
    exact absurd hfit (by decide)

end Link

end TrIrcd
