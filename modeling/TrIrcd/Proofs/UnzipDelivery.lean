import TrIrcd.Src.Zlink

/-!
# What the parser receives of a compressed buffer

`unzip_buffer` points `next_out` at `unzipbuf` once and hands the callback
everything from the start of `unzipbuf` after each call of `inflate`. So what
one call wrote is delivered again after every later call, and what does not
fit into `unzipbuf` is never delivered.

A byte of a delivered piece is told by its offset in `unzipbuf`, which is its
offset in the decompressed bytes: `DeliveredOnce` says that the pieces, with
these offsets, are the decompressed bytes with theirs. That is so exactly
when there is nothing to deliver or one successful call writes everything
(`unzipBuffer_delivers_iff`). A turn with a non-empty `unzipbuf` behind it
delivers offset 0 again (`received_of_written`), which is what the induction
over the turns needs to know of them.
-/

namespace TrIrcd

open TrIrcd.Lib

variable {ζ σ : Type} {inflate : Inflate ζ} {parserfunc : ParserFunc σ}

/-- The pieces are the bytes `D`, each once and in order. -/
def DeliveredOnce (received : List (List UInt8)) (D : List UInt8) : Prop :=
  received.flatMap List.zipIdx = D.zipIdx

theorem DeliveredOnce.length_eq {received : List (List UInt8)} {D : List UInt8}
    (h : DeliveredOnce received D) : received.flatten.length = D.length := by
  have hlen := congrArg List.length h
  rw [List.length_flatMap, List.length_zipIdx] at hlen
  rw [List.length_flatten, ← hlen]
  simp only [List.length_zipIdx]

namespace Inflate

/-- The loop calls `inflate` once more, and the call answers `Z_OK`. -/
def Succeeds (inflate : Inflate ζ) (z : ζ) (inp : List UInt8) (room : Nat) : Prop :=
  inp ≠ [] ∧ (inflate.call z inp room).ret = zOk

/-- After calls that write nothing, one call writes all there is, and no
successful call follows it. -/
inductive AtOnce (inflate : Inflate ζ) : ζ → List UInt8 → Prop
  | quiet {z : ζ} {inp : List UInt8} (hs : inflate.Succeeds z inp unzipBufSize)
      (hout : (inflate.call z inp unzipBufSize).out = [])
      (hrest : AtOnce inflate (inflate.call z inp unzipBufSize).state
        (inp.drop (inflate.call z inp unzipBufSize).consumed)) :
      AtOnce inflate z inp
  | last {z : ζ} {inp : List UInt8} (hs : inflate.Succeeds z inp unzipBufSize)
      (hall : inflate.expand (inflate.call z inp unzipBufSize).state
        (inp.drop (inflate.call z inp unzipBufSize).consumed) = [])
      (hend : ¬ inflate.Succeeds (inflate.call z inp unzipBufSize).state
        (inp.drop (inflate.call z inp unzipBufSize).consumed)
        (unzipBufSize - (inflate.call z inp unzipBufSize).out.length)) :
      AtOnce inflate z inp

theorem AtOnce.succeeds {z : ζ} {inp : List UInt8} (h : AtOnce inflate z inp) :
    inflate.Succeeds z inp unzipBufSize := by
  cases h with
  | quiet hs => exact hs
  | last hs => exact hs

/-- What one call writes fits into `unzipbuf`. -/
theorem AtOnce.length_le {z : ζ} {inp : List UInt8} (h : AtOnce inflate z inp) :
    (inflate.expand z inp).length ≤ unzipBufSize := by
  induction h with
  | quiet hs hout _ ih =>
      rw [inflate.expand_eq _ _ _ hs.2, hout, List.nil_append]
      exact ih
  | last hs hall _ =>
      rw [inflate.expand_eq _ _ _ hs.2, hall, List.append_nil]
      exact inflate.out_le ..

end Inflate

namespace ZStream

variable {zin : ZStream ζ σ}

/-- `next_out` and `avail_out` describe `unzipbuf`. -/
structure Inv (zin : ZStream ζ σ) : Prop where
  length : zin.unzipbuf.length = unzipBufSize
  le : zin.availOut ≤ unzipBufSize

theorem start_inv (z : ζ) (buffer : List UInt8) (world : σ) :
    Inv (start z buffer world) := ⟨List.length_replicate .., Nat.le_refl _⟩

theorem length_written (hI : Inv zin) {out : List UInt8} (hout : out.length ≤ zin.availOut) :
    (blit zin.unzipbuf (unzipBufSize - zin.availOut) out).length = unzipBufSize := by
  have hle := hI.le
  rw [length_blit (by rw [hI.length]; omega), hI.length]

theorem turn_inv (hI : Inv zin) (parserfunc : ParserFunc σ) {r : Inflated ζ}
    (hout : r.out.length ≤ zin.availOut) : Inv (zin.turn parserfunc r) := by
  have hle := hI.le
  have hw := length_written hI hout
  refine ⟨?_, ?_⟩
  · simp only [turn]
    rw [length_blit, hw]
    rw [parserfunc.length_eq, List.length_take, hw]
    omega
  · simp only [turn]
    omega

/-- The piece of a turn: what stands in `unzipbuf` after the call. -/
theorem turn_received (zin : ZStream ζ σ) (parserfunc : ParserFunc σ) (r : Inflated ζ) :
    (zin.turn parserfunc r).received = zin.received ++
      [(blit zin.unzipbuf (unzipBufSize - zin.availOut) r.out).take
        (unzipBufSize - (zin.availOut - r.out.length))] := rfl

end ZStream

theorem unzipLoop_ok (parserfunc : ParserFunc σ) {zin : ZStream ζ σ} (fuel : Nat)
    (hs : inflate.Succeeds zin.state zin.nextIn zin.availOut) :
    unzipLoop inflate parserfunc (fuel + 1) zin =
      unzipLoop inflate parserfunc fuel
        (zin.turn parserfunc (inflate.call zin.state zin.nextIn zin.availOut)) := by
  simp only [unzipLoop, if_neg hs.1, if_pos hs.2]

/-- No call, or one that fails, ends the loop. -/
theorem unzipLoop_stop (parserfunc : ParserFunc σ) {zin : ZStream ζ σ} (fuel : Nat)
    (hs : ¬ inflate.Succeeds zin.state zin.nextIn zin.availOut) :
    unzipLoop inflate parserfunc (fuel + 1) zin =
      some (if zin.nextIn = [] then 0 else -1, zin) := by
  simp only [unzipLoop]
  split
  · rfl
  · next hne => rw [if_neg fun hok => hs ⟨hne, hok⟩]

/-- The fuel `unzip_buffer` passes is enough: a successful call uses up input
or room. -/
theorem unzipLoop_total (inflate : Inflate ζ) (parserfunc : ParserFunc σ) :
    ∀ {fuel : Nat} {zin : ZStream ζ σ}, zin.nextIn.length + zin.availOut < fuel →
      ∃ ret zin', unzipLoop inflate parserfunc fuel zin = some (ret, zin') := by
  intro fuel
  induction fuel with
  | zero => intro zin hf; exact absurd hf (Nat.not_lt_zero _)
  | succ fuel ih =>
      intro zin hf
      by_cases hs : inflate.Succeeds zin.state zin.nextIn zin.availOut
      · have hp := inflate.progress _ _ _ hs.2
        have hc := inflate.consumed_le zin.state zin.nextIn zin.availOut
        have ho := inflate.out_le zin.state zin.nextIn zin.availOut
        rw [unzipLoop_ok parserfunc fuel hs]
        refine ih ?_
        simp only [ZStream.turn, List.length_drop]
        omega
      · exact ⟨_, _, unzipLoop_stop parserfunc fuel hs⟩

/-- With something in `unzipbuf`, every later turn delivers a piece that starts
at its beginning. -/
theorem received_of_written :
    ∀ {fuel : Nat} {zin zin' : ZStream ζ σ} {ret : Int}, zin.Inv →
      zin.availOut < unzipBufSize →
      unzipLoop inflate parserfunc fuel zin = some (ret, zin') →
      ∃ more, zin'.received = zin.received ++ more ∧ (∀ p ∈ more, p ≠ []) ∧
        (more = [] ↔ ¬ inflate.Succeeds zin.state zin.nextIn zin.availOut) := by
  intro fuel
  induction fuel with
  | zero => intro zin zin' ret _ _ h; cases h
  | succ fuel ih =>
      intro zin zin' ret hI hlt h
      by_cases hs : inflate.Succeeds zin.state zin.nextIn zin.availOut
      · rw [unzipLoop_ok parserfunc fuel hs] at h
        have ho := inflate.out_le zin.state zin.nextIn zin.availOut
        have hlt' : (zin.turn parserfunc (inflate.call zin.state zin.nextIn
            zin.availOut)).availOut < unzipBufSize := by
          simp only [ZStream.turn]
          omega
        obtain ⟨more, hmore, hp, -⟩ := ih (zin.turn_inv hI parserfunc ho) hlt' h
        rw [ZStream.turn_received, List.append_assoc] at hmore
        refine ⟨_, hmore, fun p hpm => ?_, iff_of_false (by simp) fun hn => hn hs⟩
        rcases List.mem_append.mp hpm with hpm | hpm
        · rw [List.mem_singleton.mp hpm]
          refine List.ne_nil_of_length_pos ?_
          rw [List.length_take, ZStream.length_written hI ho]
          omega
        · exact hp p hpm
      · rw [unzipLoop_stop parserfunc fuel hs] at h
        cases h
        exact ⟨[], (List.append_nil _).symm, List.forall_mem_nil _, iff_of_true rfl hs⟩

/-- Pieces that start at offset 0 are not what follows a first piece. -/
theorem flatMap_zipIdx_eq_iff {more : List (List UInt8)} (hmore : ∀ p ∈ more, p ≠ [])
    {E : List UInt8} {k : Nat} (hk : 0 < k) :
    more.flatMap List.zipIdx = E.zipIdx k ↔ more = [] ∧ E = [] := by
  constructor
  · intro h
    cases more with
    | nil => exact ⟨rfl, List.zipIdx_eq_nil_iff.mp h.symm⟩
    | cons p more =>
        cases p with
        | nil => exact absurd rfl (hmore [] (List.mem_cons_self ..))
        | cons b p =>
            have hm : (b, 0) ∈ E.zipIdx k := by
              rw [← h]
              simp
            have := List.le_snd_of_mem_zipIdx hm
            omega
  · rintro ⟨rfl, rfl⟩
    rfl

theorem unzipLoop_delivers :
    ∀ {fuel : Nat} {zin zin' : ZStream ζ σ} {ret : Int}, zin.Inv →
      zin.availOut = unzipBufSize →
      unzipLoop inflate parserfunc fuel zin = some (ret, zin') →
      ∃ more, zin'.received = zin.received ++ more ∧
        (DeliveredOnce more (inflate.expand zin.state zin.nextIn) ↔
          inflate.expand zin.state zin.nextIn = [] ∨
            inflate.AtOnce zin.state zin.nextIn) := by
  intro fuel
  induction fuel with
  | zero => intro zin zin' ret _ _ h; cases h
  | succ fuel ih =>
      intro zin zin' ret hI hav h
      by_cases hs : inflate.Succeeds zin.state zin.nextIn zin.availOut
      · rw [unzipLoop_ok parserfunc fuel hs] at h
        rw [hav] at h hs
        generalize hr : inflate.call zin.state zin.nextIn unzipBufSize = r at h
        have ho : r.out.length ≤ zin.availOut := by
          rw [← hr, hav]
          exact inflate.out_le ..
        have hexp : inflate.expand zin.state zin.nextIn =
            r.out ++ inflate.expand r.state (zin.nextIn.drop r.consumed) := by
          rw [← hr]
          exact inflate.expand_eq _ _ _ hs.2
        have hpiece : (blit zin.unzipbuf (unzipBufSize - zin.availOut) r.out).take
            (unzipBufSize - (zin.availOut - r.out.length)) = r.out := by
          have hle : unzipBufSize - (zin.availOut - r.out.length) = 0 + r.out.length := by
            omega
          rw [hle, hav, Nat.sub_self, take_blit (Nat.zero_le _)]
          rfl
        have hI' := zin.turn_inv hI parserfunc ho
        by_cases hout : r.out = []
        · -- A call that writes nothing leaves the question to the rest.
          have hav' : (zin.turn parserfunc r).availOut = unzipBufSize := by
            simp only [ZStream.turn, hout, List.length_nil, Nat.sub_zero, hav]
          obtain ⟨more, hmore, hiff⟩ := ih hI' hav' h
          rw [ZStream.turn_received, hpiece, hout, List.append_assoc] at hmore
          refine ⟨_, hmore, ?_⟩
          rw [hout, List.nil_append] at hexp
          rw [hexp]
          refine hiff.trans (or_congr_right' fun hne => ?_)
          constructor
          · intro ha
            exact .quiet hs (by rw [hr]; exact hout) (by rw [hr]; exact ha)
          · intro ha
            cases ha with
            | quiet _ _ hrest => rw [hr] at hrest; exact hrest
            | last _ hall => rw [hr] at hall; exact absurd hall hne
        · have hlen := List.length_pos_iff.mpr hout
          have hlt : (zin.turn parserfunc r).availOut < unzipBufSize := by
            simp only [ZStream.turn]
            omega
          obtain ⟨more, hmore, hp, hend⟩ := received_of_written hI' hlt h
          rw [ZStream.turn_received, hpiece, List.append_assoc] at hmore
          refine ⟨_, hmore, ?_⟩
          have hD : inflate.expand zin.state zin.nextIn ≠ [] := by
            rw [hexp]
            exact List.append_ne_nil_of_left_ne_nil hout _
          rw [or_iff_right hD, DeliveredOnce, hexp, List.singleton_append,
            List.flatMap_cons, List.zipIdx_append, List.append_cancel_left_eq,
            Nat.zero_add, flatMap_zipIdx_eq_iff hp hlen, hend]
          simp only [ZStream.turn, hav]
          constructor
          · intro ⟨hend, hall⟩
            exact .last hs (by rw [hr]; exact hall) (by rw [hr]; exact hend)
          · intro ha
            cases ha with
            | quiet _ hq => rw [hr] at hq; exact absurd hq hout
            | last _ hall hend => rw [hr] at hall hend; exact ⟨hend, hall⟩
      · rw [unzipLoop_stop parserfunc fuel hs] at h
        cases h
        rw [hav] at hs
        refine ⟨[], (List.append_nil _).symm, ?_⟩
        rw [or_iff_left fun ha => hs ha.succeeds, DeliveredOnce, List.flatMap_nil, eq_comm,
          List.zipIdx_eq_nil_iff]

/-- A buffer that takes one successful call. -/
theorem unzipBuffer_one_call {z : ζ} (buffer : List UInt8) (parserfunc : ParserFunc σ)
    (world : σ) (hs : inflate.Succeeds z buffer unzipBufSize)
    (hend : ¬ inflate.Succeeds (inflate.call z buffer unzipBufSize).state
      (buffer.drop (inflate.call z buffer unzipBufSize).consumed)
      (unzipBufSize - (inflate.call z buffer unzipBufSize).out.length)) :
    ∃ zin, unzipBuffer inflate parserfunc z buffer world =
        some (if buffer.drop (inflate.call z buffer unzipBufSize).consumed = [] then 0 else -1,
          zin) ∧
      zin.received = [(inflate.call z buffer unzipBufSize).out] := by
  have hpos : ∃ fuel, buffer.length + unzipBufSize = fuel + 1 :=
    ⟨buffer.length + unzipBufSize - 1, by have := List.length_pos_iff.mpr hs.1; omega⟩
  obtain ⟨fuel, hfuel⟩ := hpos
  have hturn : unzipLoop inflate parserfunc (fuel + 1 + 1) (ZStream.start z buffer world) = _ :=
    unzipLoop_ok parserfunc (fuel + 1) hs
  have hstop : unzipLoop inflate parserfunc (fuel + 1) ((ZStream.start z buffer world).turn
      parserfunc (inflate.call z buffer unzipBufSize)) = _ :=
    unzipLoop_stop parserfunc fuel hend
  refine ⟨_, by rw [unzipBuffer, hfuel]; exact hturn.trans hstop, ?_⟩
  have hp : (blit (List.replicate unzipBufSize 0) 0
      (inflate.call z buffer unzipBufSize).out).take _ = _ := take_blit (Nat.zero_le _)
  have ho := inflate.out_le z buffer unzipBufSize
  rw [ZStream.turn_received]
  simp only [ZStream.start, Nat.sub_self, Nat.sub_sub_self ho]
  rw [Nat.zero_add] at hp
  rw [hp]
  rfl

/-- `unzip_buffer` returns, and its callback has received exactly the
decompressed bytes, each once and in order, if and only if there are none or
one successful call of `inflate` wrote them all, the last one. -/
theorem unzipBuffer_delivers_iff (inflate : Inflate ζ) (parserfunc : ParserFunc σ) (z : ζ)
    (buffer : List UInt8) (world : σ) :
    ∃ ret zin, unzipBuffer inflate parserfunc z buffer world = some (ret, zin) ∧
      (DeliveredOnce zin.received (inflate.expand z buffer) ↔
        inflate.expand z buffer = [] ∨ inflate.AtOnce z buffer) := by
  obtain ⟨ret, zin, hz⟩ : ∃ ret zin, unzipLoop inflate parserfunc
      (buffer.length + unzipBufSize + 1) (ZStream.start z buffer world) = some (ret, zin) :=
    unzipLoop_total inflate parserfunc (Nat.lt_succ_self _)
  obtain ⟨more, hmore, hiff⟩ :=
    unzipLoop_delivers (ZStream.start_inv z buffer world) rfl hz
  refine ⟨ret, zin, hz, ?_⟩
  rw [hmore]
  exact hiff

/-! ## A buffer that does not fit -/

/-- A stream in which every byte stands for a full `unzipbuf` of itself. Like
zlib it answers `Z_BUF_ERROR` when there is no room for what comes next. -/
def fullRuns : Inflate Unit where
  call _ inp room :=
    match inp with
    | [] => { ret := -5, state := (), consumed := 0, out := [] }
    | b :: _ =>
        if unzipBufSize ≤ room then
          { ret := zOk, state := (), consumed := 1, out := List.replicate unzipBufSize b }
        else { ret := -5, state := (), consumed := 0, out := [] }
  expand _ inp := inp.flatMap (List.replicate unzipBufSize)
  consumed_le _ inp room := by
    cases inp with
    | nil => exact Nat.le_refl _
    | cons b inp =>
        simp only [List.length_cons]
        split
        · exact Nat.le_add_left ..
        · exact Nat.zero_le _
  out_le _ inp room := by
    cases inp with
    | nil => exact Nat.zero_le _
    | cons b inp =>
        simp only
        split
        · next hroom => rw [List.length_replicate]; exact hroom
        · exact Nat.zero_le _
  progress _ inp room := by
    cases inp with
    | nil => simp [zOk]
    | cons b inp =>
        simp only
        split
        · intro _
          exact Nat.lt_add_right _ Nat.one_pos
        · simp [zOk]
  expand_eq _ inp room := by
    cases inp with
    | nil => simp [zOk]
    | cons b inp =>
        simp only
        split
        · simp
        · simp [zOk]

/-- A callback that does nothing. -/
def ignore : ParserFunc Unit where
  call _ buf := ((), buf)
  length_eq _ _ := rfl

theorem fullRuns_call (b : UInt8) (inp : List UInt8) :
    fullRuns.call () (b :: inp) unzipBufSize =
      { ret := zOk, state := (), consumed := 1, out := List.replicate unzipBufSize b } := by
  simp only [fullRuns, if_pos (Nat.le_refl _)]

theorem fullRuns_expand_length (inp : List UInt8) :
    (fullRuns.expand () inp).length = inp.length * unzipBufSize := by
  induction inp with
  | nil => rw [List.length_nil, Nat.zero_mul]; rfl
  | cons b inp ih =>
      simp only [fullRuns, List.flatMap_cons, List.length_append, List.length_replicate,
        List.length_cons, Nat.succ_mul] at ih ⊢
      omega

theorem fullRuns_no_room (b : UInt8) (inp : List UInt8) :
    (fullRuns.call () (b :: inp) 0).ret = -5 := by
  simp only [fullRuns, if_neg (show ¬ unzipBufSize ≤ 0 by decide)]

/-- Of a buffer that decompresses to twice the size of `unzipbuf` the second
half is lost: the second call finds no room and `unzip_buffer` gives up. -/
theorem unzipBuffer_loses_overflow :
    ∃ zin, unzipBuffer fullRuns ignore () [1, 2] () = some (-1, zin) ∧
      zin.received = [List.replicate unzipBufSize 1] ∧
      ¬ DeliveredOnce zin.received (fullRuns.expand () [1, 2]) := by
  have hcall := fullRuns_call 1 [2]
  obtain ⟨zin, hz, hreceived⟩ := unzipBuffer_one_call [1, 2] ignore ()
    ⟨List.cons_ne_nil _ _, by rw [hcall]⟩ fun hs => by
      have hret := hs.2
      rw [hcall] at hret
      simp only [List.length_replicate, Nat.sub_self, List.drop_succ_cons, List.drop_zero,
        fullRuns_no_room] at hret
      exact absurd hret (by decide)
  rw [hcall] at hz hreceived
  refine ⟨zin, hz, hreceived, fun h => ?_⟩
  have hlen := h.length_eq
  rw [hreceived, fullRuns_expand_length, List.flatten_singleton, List.length_replicate,
    List.length_cons, List.length_singleton] at hlen
  exact absurd hlen (by decide)

end TrIrcd
