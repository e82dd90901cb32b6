import TrIrcd.Src.Link
import TrIrcd.Proofs.PacketLines

/-!
# Lines from a link

`feed` is one pass of `server_dopacket` over its data with the memory taken
out: the lines go to `server_parse`, the bytes behind the line that switches
the cipher on are decrypted on the spot, and what no line end closes is the
tail. `dopacketLoop` does the same wherever the data are (`dopacketLoop_feed`)
and leaves the tail `Waiting`, unless `restbuf` has no room for it or the tail
lies across the place it is copied to.

Nothing in `server_dopacket` looks at how much room there is. So a packet goes
through exactly when there is some (`Room`), and otherwise the `memcpy` or the
`memset` in front of the loop, or the `memcpy` in it, leaves `restbuf` or is
undefined.
-/

namespace TrIrcd

open TrIrcd.Lib

/-! ## The cipher -/

/-- The keystream does not depend on how the stream is cut. -/
theorem rc4ProcessStream_append (rc4 : Rc4State) (xs ys : List UInt8) :
    rc4ProcessStream rc4 (xs ++ ys) =
      ((rc4ProcessStream (rc4ProcessStream rc4 xs).1 ys).1,
        (rc4ProcessStream rc4 xs).2 ++ (rc4ProcessStream (rc4ProcessStream rc4 xs).1 ys).2) := by
  induction xs generalizing rc4 with
  | nil => rfl
  | cons c xs ih => simp [rc4ProcessStream, ih]

@[simp] theorem length_rc4ProcessStream (rc4 : Rc4State) (xs : List UInt8) :
    (rc4ProcessStream rc4 xs).2.length = xs.length := by
  induction xs generalizing rc4 with
  | nil => rfl
  | cons c xs ih => simp [rc4ProcessStream, ih]

namespace Link

variable {σ : Type} (P : LinkParser σ)

/-- What the lines of the data make of the world, and the tail. -/
def feed : Nat → LinkWorld σ → List UInt8 → LinkWorld σ × List UInt8
  | 0, w, _ => (w, [])
  | fuel + 1, w, data =>
      match data.dropWhile fun c => !isEol c with
      | [] => (w, data)
      | _ :: rest =>
          let line := data.takeWhile fun c => !isEol c
          if line = [] then feed fuel w rest
          else
            let (parser, parseval) := P.serverParse w.parser line
            let w := { w with parser := parser }
            if parseval = clientExited then (w, [])
            else if parseval = zipNextBuffer ∧ P.zipIn parser then (w, [])
            else if parseval = rc4NextBuffer then
              let (rc4In, rest) := rc4ProcessStream w.rc4In rest
              feed fuel { w with rc4In := rc4In } rest
            else feed fuel w rest

section Feed

variable {P}

theorem feed_nil (fuel : Nat) (w : LinkWorld σ) : feed P fuel w [] = (w, []) := by
  cases fuel with
  | zero => rfl
  | succ fuel => rfl

/-- Text and what follows it. -/
theorem span_text {t : List UInt8} (ht : ∀ c ∈ t, isEol c = false) {rest : List UInt8}
    (hrest : ∀ c ∈ rest.head?, isEol c = true) :
    (t ++ rest).takeWhile (fun c => !isEol c) = t ∧
      (t ++ rest).dropWhile (fun c => !isEol c) = rest := by
  have htext : ∀ c ∈ t, (fun c => !isEol c) c = true := fun c hc => by simp [ht c hc]
  rw [List.takeWhile_append_of_pos htext, List.dropWhile_append_of_pos htext]
  cases rest with
  | nil => simp
  | cons c rest => simp [hrest c rfl]

theorem feed_text (fuel : Nat) (w : LinkWorld σ) {t : List UInt8}
    (ht : ∀ c ∈ t, isEol c = false) : feed P (fuel + 1) w t = (w, t) := by
  have hspan := (@span_text t ht [] (by simp)).2
  rw [List.append_nil] at hspan
  rw [feed, hspan]

/-- The line is parsed, and the rest follows unless the link is gone. -/
theorem feed_line (fuel : Nat) (w : LinkWorld σ) {t rest : List UInt8} {c : UInt8}
    (ht : ∀ c ∈ t, isEol c = false) (hc : isEol c = true) :
    feed P (fuel + 1) w (t ++ c :: rest) =
      if t = [] then feed P fuel w rest
      else
        let r := P.serverParse w.parser t
        let w := { w with parser := r.1 }
        if r.2 = clientExited then (w, [])
        else if r.2 = zipNextBuffer ∧ P.zipIn r.1 then (w, [])
        else if r.2 = rc4NextBuffer then
          let s := rc4ProcessStream w.rc4In rest
          feed P fuel { w with rc4In := s.1 } s.2
        else feed P fuel w rest := by
  obtain ⟨htake, hdrop⟩ := @span_text t ht (c :: rest) (by simpa using hc)
  rw [feed, hdrop]
  dsimp only
  rw [htake]

end Feed

theorem text_or_line (data : List UInt8) :
    (∀ c ∈ data, isEol c = false) ∨ ∃ t c rest, data = t ++ c :: rest ∧
      (∀ c ∈ t, isEol c = false) ∧ isEol c = true := by
  induction data using lines_induction isEol with
  | text t ht => exact .inl ht
  | line t c rest ht hc _ => exact .inr ⟨t, c, rest, rfl, ht, hc⟩

/-! ## The loop -/

/-- Where the data are. -/
structure Placed (cptr : LinkClient σ) (buf : PacketBuf) (buffer : Nat)
    (data : List UInt8) : Prop where
  mem : ∃ junk, (cptr.mem buf).drop buffer = data ++ junk
  size : cptr.hasRestbuf = true → cptr.restbuf.length = restbufSize
  owned : buf = none → cptr.hasRestbuf = true

/-- Between two packets: the tail of what came before waits. -/
structure Carries (cptr : LinkClient σ) (r : LinkWorld σ × List UInt8) : Prop where
  waiting : Waiting cptr r.2
  parsed : cptr.parsed = r.1

/-- `restbuf` has room for a tail of `n` bytes, and if they are the last of `total`
bytes in it, they can be copied to their front. -/
structure KeepsTail (M : Memcpy) (inside : Prop) (total n : Nat) : Prop where
  room : n ≤ restbufSize
  moves : inside → M.Moves total n

/-- What a pass leaves: the world and the tail, if it can be kept. -/
structure Leaves (kept : Prop) (r : LinkWorld σ × List UInt8)
    (x : Except LinkFault (LinkClient σ)) : Prop where
  waits : kept → ∃ cptr, x = .ok cptr ∧ Carries cptr r
  fault : ¬kept → ∃ e, x = .error e

theorem Leaves.nil {M : Memcpy} {inside : Prop} {total : Nat} {cptr : LinkClient σ}
    (hsize : cptr.hasRestbuf = true → cptr.restbuf.length = restbufSize)
    (hwait : cptr.waitlen = 0) :
    Leaves (KeepsTail M inside total 0) (cptr.parsed, []) (.ok cptr) :=
  ⟨fun _ => ⟨cptr, rfl, ⟨hsize, fun h => by omega, hwait, by simp [hwait]⟩, rfl⟩,
    fun h => absurd ⟨Nat.zero_le _, fun _ => M.moves_zero total⟩ h⟩

section Loop

variable {M : Memcpy} {P} {cptr : LinkClient σ} {buf : PacketBuf} {buffer : Nat}

/-- The NUL behind a line leaves what follows in place. -/
theorem Placed.terminate {t rest : List UInt8} {c : UInt8}
    (h : Placed cptr buf buffer (t ++ c :: rest)) :
    let r := cptr.terminate buf (buffer + t.length)
    Placed r.1 r.2 (buffer + t.length + 1) rest ∧
      ((r.1.mem r.2).drop buffer).take t.length = t ∧
      r.1.waitlen = cptr.waitlen ∧ r.1.parsed = cptr.parsed ∧ (r.2 = none ↔ buf = none) := by
  obtain ⟨junk, hmem⟩ := h.mem
  rw [List.append_assoc, List.cons_append] at hmem
  obtain ⟨hline, hrest⟩ := terminate_line hmem
  obtain ⟨restbuf, heq, hlen⟩ := terminate_eq cptr buf (buffer + t.length)
  have hbuf := terminate_buf cptr buf (buffer + t.length)
  refine ⟨⟨⟨junk, hrest⟩, ?_, ?_⟩, hline, ?_, ?_, hbuf⟩
  · simpa [heq, hlen] using h.size
  · simpa [heq, hbuf] using h.owned
  · rw [heq]
  · rw [heq]

/-- An empty line is skipped. -/
theorem Placed.skip {rest : List UInt8} {c : UInt8} (h : Placed cptr buf buffer (c :: rest)) :
    Placed cptr buf (buffer + 1) rest := by
  obtain ⟨junk, hmem⟩ := h.mem
  exact ⟨⟨junk, (getD_of_drop hmem).2⟩, h.size, h.owned⟩

theorem drop_blit {mem text rest : List UInt8} {i : Nat} (hi : i ≤ mem.length)
    (hmem : mem.drop i = text ++ rest) {new : List UInt8} (hnew : new.length = text.length) :
    (blit mem i new).drop i = new ++ rest ∧ (blit mem i new).length = mem.length := by
  have hlen := congrArg List.length hmem
  rw [List.length_drop, List.length_append] at hlen
  refine ⟨?_, length_blit (by omega)⟩
  rw [blit, List.append_assoc, List.drop_left' (by rw [List.length_take]; omega),
    ← List.drop_drop, hmem, hnew, List.drop_left]

/-- What is left of the packet is decrypted where it is. -/
theorem Placed.decryptRest {rest : List UInt8} (h : Placed cptr buf buffer rest)
    (hne : rest ≠ []) :
    let r := Link.decryptRest cptr buf buffer rest.length
    let s := rc4ProcessStream cptr.parsed.rc4In rest
    Placed r.1 r.2 buffer s.2 ∧ r.1.parsed = { cptr.parsed with rc4In := s.1 } ∧
      r.1.waitlen = cptr.waitlen ∧ (r.2 = none ↔ buf = none) := by
  obtain ⟨junk, hmem⟩ := h.mem
  have hin : buffer ≤ (cptr.mem buf).length := by
    have hlen := congrArg List.length hmem
    have := List.length_pos_of_ne_nil hne
    simp only [List.length_drop, List.length_append] at hlen
    omega
  have htext : ((cptr.mem buf).drop buffer).take rest.length = rest := by
    rw [hmem, List.take_left]
  obtain ⟨hdrop, hlen⟩ := drop_blit hin hmem (length_rc4ProcessStream cptr.parsed.rc4In rest)
  cases buf with
  | some mem =>
      simp only [Link.decryptRest, htext]
      exact ⟨⟨⟨junk, hdrop⟩, h.size, nofun⟩, trivial, trivial, nofun, nofun⟩
  | none =>
      simp only [Link.decryptRest, htext]
      exact ⟨⟨⟨junk, hdrop⟩, fun hb => hlen.trans (h.size hb), h.owned⟩, trivial, trivial,
        trivial⟩

theorem dopacketLoop_nil (fuel : Nat) :
    dopacketLoop M P fuel cptr buf buffer 0 = .ok cptr := by
  cases fuel with
  | zero => rfl
  | succ fuel => rw [dopacketLoop, if_pos rfl]

/-- A turn that finds no line end is the last, and keeps what it has. -/
theorem dopacketLoop_text {fuel : Nat} {t : List UInt8} (h : Placed cptr buf buffer t)
    (ht : ∀ c ∈ t, isEol c = false) (hne : t ≠ []) :
    Leaves (KeepsTail M (buf = none) (buffer + t.length) t.length) (cptr.parsed, t)
      (dopacketLoop M P (fuel + 1) cptr buf buffer t.length) := by
  obtain ⟨junk, hmem⟩ := h.mem
  have hfind : findEol (({ cptr with waitlen := 0 } : LinkClient σ).mem buf) buffer
      t.length 0 = (t.length, 0, true) :=
    (@findEol_text _ buffer t junk 0 hmem ht).trans (by rw [Nat.zero_add])
  have hpos := List.length_pos_of_ne_nil hne
  simp only [dopacketLoop, hfind]
  rw [if_neg (by omega), if_neg (by simp), if_neg (by simp)]
  by_cases hfit : t.length ≤ restbufSize
  · have hkeep := @keepRest_waiting _ M { cptr with waitlen := 0 } buf buffer t junk h.size
      h.owned hmem hne hfit
    rw [if_neg (by omega)]
    refine ⟨fun hkeeps => ?_, fun hno => ?_⟩
    · obtain ⟨cptr', heq, hwait, hparsed⟩ := hkeep.waits hkeeps.moves
      simp only [heq, dopacketLoop_nil]
      exact ⟨cptr', rfl, hwait, hparsed⟩
    · simp only [hkeep.overlap fun hmoves => hno ⟨hfit, hmoves⟩]
      exact ⟨.overlap, rfl⟩
  · rw [if_pos (by omega)]
    exact ⟨fun hkeeps => absurd hkeeps.room hfit, fun _ => ⟨.memcpy, rfl⟩⟩

/-- The loop does what `feed` does, and the tail waits. -/
theorem dopacketLoop_feed (fuel : Nat) :
    ∀ {cptr : LinkClient σ} {buf : PacketBuf} {buffer : Nat} {data : List UInt8},
      data.length ≤ fuel → Placed cptr buf buffer data → (data = [] → cptr.waitlen = 0) →
      Leaves (KeepsTail M (buf = none) (buffer + data.length)
          (feed P fuel cptr.parsed data).2.length)
        (feed P fuel cptr.parsed data)
        (dopacketLoop M P fuel cptr buf buffer data.length) := by
  induction fuel with
  | zero =>
      intro cptr buf buffer data hfuel h hnil
      obtain rfl := List.length_eq_zero_iff.mp (Nat.le_zero.mp hfuel)
      exact Leaves.nil h.size (hnil rfl)
  | succ fuel ih =>
      intro cptr buf buffer data hfuel h hnil
      rcases eq_or_ne data [] with rfl | hne
      · rw [feed_nil, List.length_nil, dopacketLoop_nil]
        exact Leaves.nil h.size (hnil rfl)
      rcases text_or_line data with ht | ⟨t, c, rest, rfl, ht, hc⟩
      · rw [feed_text fuel _ ht]
        exact dopacketLoop_text h ht hne
      obtain ⟨junk, hmem⟩ := h.mem
      have hmem' : (cptr.mem buf).drop (buffer + 0) = t ++ c :: (rest ++ junk) := by
        simpa using hmem
      have hfind : findEol (({ cptr with waitlen := 0 } : LinkClient σ).mem buf) buffer
          (t.length + (rest.length + 1)) 0 = (t.length, rest.length, false) :=
        (@findEol_line _ buffer rest.length c hc t (rest ++ junk) 0 hmem' ht).trans
          (by rw [Nat.zero_add])
      have hz : Placed { cptr with waitlen := 0 } buf buffer (t ++ c :: rest) :=
        ⟨h.mem, h.size, h.owned⟩
      rw [List.length_append, List.length_cons] at hfuel ⊢
      rw [feed_line fuel _ ht hc]
      simp only [dopacketLoop, hfind]
      rw [if_neg (show ¬t.length + (rest.length + 1) = 0 by omega),
        show buffer + (t.length + (rest.length + 1)) = buffer + t.length + 1 + rest.length by
          omega]
      by_cases hnil : t = []
      · subst hnil
        rw [if_pos rfl, if_neg (by simp), if_pos (by simp)]
        exact ih (by simpa using hfuel) hz.skip fun _ => rfl
      · have hpos := List.length_pos_of_ne_nil hnil
        rw [if_neg hnil, if_pos (show 0 < t.length ∧ ¬false = true from ⟨hpos, by simp⟩)]
        obtain ⟨hp, hline, hwait, hparsed, hbuf⟩ := hz.terminate
        generalize PacketClient.terminate _ buf (buffer + t.length) = r at *
        obtain ⟨cptr', buf'⟩ := r
        simp only at hp hline hwait hparsed hbuf
        simp only [hline, hparsed]
        rw [← hbuf]
        have hlen : rest.length ≤ fuel := by omega
        have hq : Placed { cptr' with parsed := { cptr.parsed with
            parser := (P.serverParse cptr.parsed.parser t).1 } } buf'
            (buffer + t.length + 1) rest := ⟨hp.mem, hp.size, hp.owned⟩
        -- The answer of `server_parse`.
        by_cases hexit : (P.serverParse cptr.parsed.parser t).2 = clientExited
        · rw [if_pos hexit, if_pos hexit]
          exact Leaves.nil hq.size hwait
        rw [if_neg hexit, if_neg hexit]
        by_cases hzip : (P.serverParse cptr.parsed.parser t).2 = zipNextBuffer ∧
            P.zipIn (P.serverParse cptr.parsed.parser t).1 = true
        · rw [if_pos hzip, if_pos hzip]
          exact Leaves.nil hq.size hwait
        rw [if_neg hzip, if_neg hzip]
        by_cases hrc4 : (P.serverParse cptr.parsed.parser t).2 = rc4NextBuffer
        · rw [if_pos hrc4]
          rcases eq_or_ne rest [] with rfl | hrest
          · rw [if_neg (by simp), List.length_nil, dopacketLoop_nil, rc4ProcessStream, feed_nil]
            exact Leaves.nil hq.size hwait
          · have hpos' : rest.length ≠ 0 := by simpa using hrest
            obtain ⟨hd, hdparsed, hdwait, hdbuf⟩ := hq.decryptRest hrest
            rw [if_pos ⟨hrc4, hpos'⟩]
            have hih := ih (by rw [length_rc4ProcessStream]; exact hlen) hd
              fun _ => hdwait.trans hwait
            rw [hdparsed, length_rc4ProcessStream, hdbuf] at hih
            exact hih
        · rw [if_neg hrc4, if_neg fun hb => hrc4 hb.1]
          exact ih hlen hq fun _ => hwait

end Loop

/-! ## Packets -/

/-- A packet behind the tail of what came before. -/
def feedPacket (r : LinkWorld σ × List UInt8) (packet : List UInt8) :
    LinkWorld σ × List UInt8 :=
  feed P (r.2 ++ packet).length r.1 (r.2 ++ packet)

/-- `restbuf` has room for the packet behind a tail, and else for the tail that
the packet leaves, which can be copied to where it waits. -/
structure Room (M : Memcpy) (r : LinkWorld σ × List UInt8) (packet : List UInt8) : Prop where
  tail : r.2 = [] → (feedPacket P r packet).2.length ≤ restbufSize
  append : r.2 ≠ [] → r.2.length + packet.length ≤ readbufSize * 4
  moves : r.2 ≠ [] →
    M.Moves (r.2.length + packet.length) (feedPacket P r packet).2.length

/-- The size wraps when the data are longer than what is cleared. -/
theorem toNat_clearSize {length : Nat} (h : length ≤ restbufSize) :
    (clearSize length).toNat =
      if length ≤ readbufSize * 4 then readbufSize * 4 - length
      else UInt64.size + readbufSize * 4 - length := by
  have hsize : restbufSize < UInt64.size := by decide
  have hread : readbufSize * 4 < UInt64.size := by decide
  have hword : UInt64.size = 2 ^ 64 := rfl
  rw [clearSize, UInt64.toNat_sub, UInt64.toNat_ofNat_of_lt' (by omega),
    UInt64.toNat_ofNat_of_lt' (by omega)]
  split <;> omega

theorem length_feed_le (fuel : Nat) :
    ∀ (w : LinkWorld σ) (data : List UInt8), (feed P fuel w data).2.length ≤ data.length := by
  induction fuel with
  | zero => exact fun _ _ => Nat.zero_le _
  | succ fuel ih =>
      intro w data
      rcases text_or_line data with ht | ⟨t, c, rest, rfl, ht, hc⟩
      · rw [feed_text fuel w ht]
      · have hlen : rest.length ≤ (t ++ c :: rest).length := by simp; omega
        rw [feed_line fuel w ht hc]
        dsimp only
        repeat' split
        · exact (ih _ _).trans hlen
        · exact Nat.zero_le _
        · exact Nat.zero_le _
        · exact (ih _ _).trans (by rw [length_rc4ProcessStream]; exact hlen)
        · exact (ih _ _).trans hlen

section Packets

variable {M : Memcpy} {P} {cptr : LinkClient σ} {r : LinkWorld σ × List UInt8}
  {packet : List UInt8}

/-- Nothing waits, and the packet is read where it is. -/
theorem serverDopacket_first (h : Carries cptr r) (hnil : r.2 = []) :
    Leaves ((feedPacket P r packet).2.length ≤ restbufSize) (feedPacket P r packet)
      (serverDopacket M P cptr packet) := by
  have hwait : cptr.waitlen = 0 := by rw [h.waiting.waitlen, hnil, List.length_nil]
  have hleaves := @dopacketLoop_feed _ P M packet.length cptr (some packet) 0 packet
    (Nat.le_refl _) ⟨⟨[], by simp [PacketClient.mem]⟩, h.waiting.size, nofun⟩ fun _ => hwait
  rw [serverDopacket, if_neg (by omega), feedPacket, hnil, List.nil_append, ← h.parsed]
  exact ⟨fun hroom => hleaves.waits ⟨hroom, nofun⟩,
    fun hroom => hleaves.fault fun hkeeps => hroom hkeeps.room⟩

theorem length_feedPacket_le (r : LinkWorld σ × List UInt8) (packet : List UInt8) :
    (feedPacket P r packet).2.length ≤ r.2.length + packet.length := by
  rw [← List.length_append]
  exact length_feed_le P _ _ _

/-- With room for it the packet is put behind the tail. -/
theorem serverDopacket_append (h : Carries cptr r) (hne : r.2 ≠ [])
    (hfit : r.2.length + packet.length ≤ readbufSize * 4) :
    Leaves (M.Moves (r.2.length + packet.length) (feedPacket P r packet).2.length)
      (feedPacket P r packet) (serverDopacket M P cptr packet) := by
  have hroom : readbufSize * 4 ≤ restbufSize := by decide
  have hwait := h.waiting.waitlen
  have htail := @length_feedPacket_le _ P r packet
  have hpos : 0 < cptr.waitlen := by
    have := List.length_pos_of_ne_nil hne
    omega
  have hclear : (clearSize (packet.length + cptr.waitlen)).toNat =
      readbufSize * 4 - (packet.length + cptr.waitlen) := by
    rw [toNat_clearSize (by omega), if_pos (by omega)]
  have hlen : packet.length + cptr.waitlen = (r.2 ++ packet).length := by
    rw [List.length_append]
    omega
  obtain ⟨⟨junk, hdata⟩, hlength⟩ := packet_behind packet h.waiting hpos hfit
  simp only [serverDopacket]
  rw [if_pos hpos, if_neg (by omega), hclear, if_neg (by omega)]
  generalize blit (blit cptr.restbuf cptr.waitlen packet) _ _ = restbuf at *
  have hleaves := @dopacketLoop_feed σ P M _ { cptr with restbuf := restbuf } none 0 _
    (Nat.le_refl _)
    ⟨⟨junk, hdata⟩, fun hb => hlength.trans (h.waiting.size hb), fun _ => h.waiting.created hpos⟩
    fun hnil => absurd (List.append_eq_nil_iff.mp hnil).1 hne
  rw [Nat.zero_add] at hleaves
  rw [hlen, feedPacket, ← h.parsed]
  rw [feedPacket, ← h.parsed] at htail
  rw [List.length_append] at hleaves htail ⊢
  exact ⟨fun hmoves => hleaves.waits ⟨htail.trans (by omega), fun _ => hmoves⟩,
    fun hmoves => hleaves.fault fun hkeeps => hmoves (hkeeps.moves rfl)⟩

/-- Without it, the `memcpy` or the `memset` leaves `restbuf`. -/
theorem serverDopacket_fault (h : Carries cptr r) (hne : r.2 ≠ [])
    (hfit : readbufSize * 4 < r.2.length + packet.length) :
    ∃ e, serverDopacket M P cptr packet = .error e := by
  have hwait := h.waiting.waitlen
  have hsize : restbufSize < UInt64.size := by decide
  have hpos : 0 < cptr.waitlen := by
    have := List.length_pos_of_ne_nil hne
    omega
  simp only [serverDopacket]
  rw [if_pos hpos]
  by_cases hcpy : restbufSize < cptr.waitlen + packet.length
  · exact ⟨.memcpy, if_pos hcpy⟩
  · have hset : restbufSize < packet.length + cptr.waitlen +
        (clearSize (packet.length + cptr.waitlen)).toNat := by
      rw [toNat_clearSize (by omega), if_neg (by omega)]
      omega
    exact ⟨.memset, by rw [if_neg hcpy, if_pos hset]⟩

/-- A packet goes through exactly when there is room. -/
theorem serverDopacket_room (h : Carries cptr r) (hroom : Room P M r packet) :
    ∃ cptr', serverDopacket M P cptr packet = .ok cptr' ∧
      Carries cptr' (feedPacket P r packet) := by
  by_cases hnil : r.2 = []
  · exact (serverDopacket_first h hnil).waits (hroom.tail hnil)
  · exact (serverDopacket_append h hnil (hroom.append hnil)).waits (hroom.moves hnil)

theorem serverDopacket_no_room (h : Carries cptr r) (hroom : ¬Room P M r packet) :
    ∃ e, serverDopacket M P cptr packet = .error e := by
  by_cases hnil : r.2 = []
  · exact (serverDopacket_first h hnil).fault fun htail =>
      hroom ⟨fun _ => htail, fun hne => absurd hnil hne, fun hne => absurd hnil hne⟩
  by_cases hfit : r.2.length + packet.length ≤ readbufSize * 4
  · exact (serverDopacket_append h hnil hfit).fault fun hmoves =>
      hroom ⟨fun hb => absurd hb hnil, fun _ => hfit, fun _ => hmoves⟩
  · exact serverDopacket_fault h hnil (Nat.lt_of_not_le hfit)

end Packets

end Link

end TrIrcd
