import TrIrcd.Lib.Lines
import TrIrcd.Src.Packet

/-!
# Lines from packets

`Waiting` says what `restbuf` holds between two packets: the remainder of
what came before. `dopacketLoop` hands out the segments of its data and
leaves the remainder waiting, wherever the data are, so `server_dopacket`
does for a packet what one loop would do for the remainder and the packet
together, and the packets make no difference.

The remainder has to be copied to where it waits. A line that waits and a
packet behind it leave one that may be longer than what was in front of it, and
then the `memcpy` is from a place to another that it overlaps: `PacketsKept` is
that this does not happen, or that `memcpy` copies from the front.
-/

namespace TrIrcd

open TrIrcd.Lib

section PacketLines

variable {σ : Type}

/-- Between two packets: what waits is `rest`. -/
structure Waiting (cptr : PacketClient σ) (rest : List UInt8) : Prop where
  size : cptr.hasRestbuf = true → cptr.restbuf.length = restbufSize
  created : 0 < cptr.waitlen → cptr.hasRestbuf = true
  waitlen : cptr.waitlen = rest.length
  rest : cptr.restbuf.take cptr.waitlen = rest

theorem waiting_fresh {cptr : PacketClient σ} (hhas : cptr.hasRestbuf = false)
    (hwait : cptr.waitlen = 0) : Waiting cptr [] :=
  ⟨fun h => by simp [hhas] at h, fun h => by omega, hwait, by simp [hwait]⟩

/-! ## Looking for the end of a line -/

theorem getD_of_drop {mem rest : List UInt8} {i : Nat} {c : UInt8}
    (h : mem.drop i = c :: rest) : mem.getD i 0 = c ∧ mem.drop (i + 1) = rest := by
  constructor
  · have hget := congrArg List.head? h
    rw [List.head?_drop] at hget
    rw [List.getD_eq_getElem?_getD, hget]
    rfl
  · rw [← List.drop_drop, h]
    rfl

theorem findEol_text {mem : List UInt8} {buffer : Nat} :
    ∀ {t junk : List UInt8} {tmplen : Nat}, mem.drop (buffer + tmplen) = t ++ junk →
      (∀ c ∈ t, isEol c = false) →
      findEol mem buffer t.length tmplen = (tmplen + t.length, 0, true) := by
  intro t
  induction t with
  | nil => exact fun _ _ => rfl
  | cons c t ih =>
      intro junk tmplen hmem ht
      obtain ⟨hc, hrest⟩ := getD_of_drop hmem
      rw [List.length_cons, findEol, hc, ht c (List.mem_cons_self ..),
        if_neg Bool.false_ne_true, @ih junk (tmplen + 1) hrest
          fun d hd => ht d (List.mem_cons_of_mem _ hd)]
      congr 1
      omega

theorem findEol_line {mem : List UInt8} {buffer n : Nat} {c : UInt8} (hc : isEol c = true) :
    ∀ {t rest : List UInt8} {tmplen : Nat}, mem.drop (buffer + tmplen) = t ++ c :: rest →
      (∀ c ∈ t, isEol c = false) →
      findEol mem buffer (t.length + (n + 1)) tmplen = (tmplen + t.length, n, false) := by
  intro t
  induction t with
  | nil =>
      intro rest tmplen hmem _
      rw [List.length_nil, Nat.zero_add, findEol, (getD_of_drop hmem).1, if_pos hc]
      rfl
  | cons d t ih =>
      intro rest tmplen hmem ht
      obtain ⟨hd, hrest⟩ := getD_of_drop hmem
      rw [List.length_cons, Nat.add_right_comm, findEol, hd, ht d (List.mem_cons_self ..),
        if_neg Bool.false_ne_true, @ih rest (tmplen + 1) hrest
          fun e he => ht e (List.mem_cons_of_mem _ he)]
      congr 1
      omega

/-! ## The loop -/

section Terminate

variable (cptr : PacketClient σ) (buf : PacketBuf) (i : Nat)

theorem terminate_mem : (cptr.terminate buf i).1.mem (cptr.terminate buf i).2 =
    (cptr.mem buf).set i 0 := by
  cases buf with
  | none => rfl
  | some mem => rfl

theorem terminate_eq : ∃ restbuf : List UInt8,
    (cptr.terminate buf i).1 = { cptr with restbuf := restbuf } ∧
      restbuf.length = cptr.restbuf.length := by
  cases buf with
  | none => exact ⟨_, rfl, List.length_set⟩
  | some mem => exact ⟨_, rfl, rfl⟩

theorem terminate_buf : (cptr.terminate buf i).2 = none ↔ buf = none := by
  cases buf with
  | none => exact ⟨fun _ => rfl, fun _ => rfl⟩
  | some mem => simp [PacketClient.terminate]

variable {cptr buf}

/-- The line is what was there, and the NUL is behind it. -/
theorem terminate_line {buffer : Nat} {t rest : List UInt8} {c : UInt8}
    (hmem : (cptr.mem buf).drop buffer = t ++ c :: rest) :
    let r := cptr.terminate buf (buffer + t.length)
    ((r.1.mem r.2).drop buffer).take t.length = t ∧
      (r.1.mem r.2).drop (buffer + t.length + 1) = rest := by
  intro r
  have hset : r.1.mem r.2 = (cptr.mem buf).set (buffer + t.length) 0 := terminate_mem ..
  constructor
  · rw [hset, List.drop_set, if_neg (by omega), Nat.add_sub_cancel_left,
      List.take_set_of_le (Nat.le_refl _), hmem, List.take_left]
  · rw [hset, List.drop_set_of_lt (by omega), Nat.add_assoc, ← List.drop_drop, hmem,
      ← List.drop_drop, List.drop_left]
    rfl

end Terminate

variable {M : Memcpy}

/-- How a pass ends: the lines are parsed and the remainder waits, if it can be
copied to where it waits. -/
structure PassEnds (kept : Prop) (parsed : σ) (rest : List UInt8)
    (x : Option (PacketClient σ)) : Prop where
  waits : kept → ∃ cptr, x = some cptr ∧ Waiting cptr rest ∧ cptr.parsed = parsed
  overlap : ¬kept → x = none

theorem PassEnds.of_waiting {kept : Prop} {parsed : σ} {cptr : PacketClient σ}
    {rest : List UInt8} (hkept : kept) (hwait : Waiting cptr rest)
    (hparsed : cptr.parsed = parsed) : PassEnds kept parsed rest (some cptr) :=
  ⟨fun _ => ⟨cptr, rfl, hwait, hparsed⟩, fun h => absurd hkept h⟩

/-- The remainder is copied to the start of `restbuf`, which it may overlap. -/
theorem keepRest_waiting {cptr : PacketClient σ} {buf : PacketBuf} {buffer : Nat}
    {t junk : List UInt8} (hsize : cptr.hasRestbuf = true → cptr.restbuf.length = restbufSize)
    (hbuf : buf = none → cptr.hasRestbuf = true)
    (hmem : (cptr.mem buf).drop buffer = t ++ junk) (hne : t ≠ [])
    (hfit : t.length ≤ restbufSize) :
    PassEnds (buf = none → M.Moves (buffer + t.length) t.length) cptr.parsed t
      (keepRest M cptr buf buffer t.length) := by
  have hcreate : (restbufCreate cptr).restbuf.length = restbufSize ∧
      (restbufCreate cptr).hasRestbuf = true ∧
      (restbufCreate cptr).parsed = cptr.parsed := by
    rw [restbufCreate]
    split
    · next h => exact ⟨hsize h, h, rfl⟩
    · exact ⟨List.length_replicate, rfl, rfl⟩
  obtain ⟨hlen, hhas, hparsed⟩ := hcreate
  cases buf with
  | some mem =>
      have hsrc : (mem.drop buffer).take t.length = t := by
        rw [show mem.drop buffer = t ++ junk from hmem, List.take_left]
      have hblit := @take_blit (restbufCreate cptr).restbuf t 0 (Nat.zero_le _)
      rw [Nat.zero_add, List.take_zero, List.nil_append] at hblit
      simp only [keepRest, hsrc]
      refine .of_waiting nofun ⟨fun _ => ?_, fun _ => hhas, rfl, hblit⟩ hparsed
      show (blit _ _ _).length = _
      rw [length_blit (by omega), hlen]
  | none =>
      have hkeep : restbufCreate cptr = cptr := by rw [restbufCreate, if_pos (hbuf rfl)]
      have hrest : cptr.restbuf.drop buffer = t ++ junk := hmem
      have hroom := congrArg List.length hrest
      have hpos := List.length_pos_of_ne_nil hne
      rw [List.length_drop, List.length_append] at hroom
      simp only [keepRest, hkeep, Memcpy.toFront_eq]
      by_cases hmoves : M.Moves (buffer + t.length) t.length
      · rw [if_pos hmoves]
        refine .of_waiting (fun _ => hmoves) ⟨fun h => ?_, fun _ => hbuf rfl, rfl, ?_⟩ rfl
        · show (copyDown _ _ _ _).length = _
          rw [length_copyDown, hsize h]
        · show (copyDown buffer t.length 0 cptr.restbuf).take t.length = t
          rw [take_copyDown (by omega), hrest, List.take_left]
      · rw [if_neg hmoves]
        exact ⟨fun h => absurd (h trivial) hmoves, fun _ => rfl⟩

variable {serverParse : σ → List UInt8 → σ × Int}

theorem dopacketLoop_zero (fuel : Nat) (cptr : PacketClient σ) (buf : PacketBuf)
    (buffer : Nat) : dopacketLoop M serverParse fuel cptr buf buffer 0 = some cptr := by
  cases fuel with
  | zero => rfl
  | succ fuel => rw [dopacketLoop, if_pos rfl]

/-- A turn that finds no line end is the last. -/
theorem dopacketLoop_text {fuel : Nat} {cptr : PacketClient σ} {buf : PacketBuf}
    {buffer : Nat} {t junk : List UInt8} (hmem : (cptr.mem buf).drop buffer = t ++ junk)
    (ht : ∀ c ∈ t, isEol c = false) (hne : t ≠ []) :
    dopacketLoop M serverParse (fuel + 1) cptr buf buffer t.length =
      keepRest M { cptr with waitlen := 0 } buf buffer t.length := by
  have hfind : findEol (({ cptr with waitlen := 0 } : PacketClient σ).mem buf) buffer
      t.length 0 = (t.length, 0, true) :=
    (@findEol_text _ buffer t junk 0 hmem ht).trans (by rw [Nat.zero_add])
  simp only [dopacketLoop, hfind, dopacketLoop_zero]
  rw [if_neg (by simpa using hne), if_neg (by simp), if_neg (by simp), Option.bind_fun_some]

/-- A turn that finds one goes on behind it, after the line was parsed. -/
theorem dopacketLoop_line (hparse : ∀ s line, (serverParse s line).2 = 0) {fuel n : Nat}
    {cptr : PacketClient σ} {buf : PacketBuf} {buffer : Nat} {t rest : List UInt8}
    {c : UInt8} (hc : isEol c = true) (hmem : (cptr.mem buf).drop buffer = t ++ c :: rest)
    (ht : ∀ c ∈ t, isEol c = false) :
    ∃ (cptr' : PacketClient σ) (buf' : PacketBuf),
      dopacketLoop M serverParse (fuel + 1) cptr buf buffer (t.length + (n + 1)) =
        dopacketLoop M serverParse fuel cptr' buf' (buffer + t.length + 1) n ∧
      (cptr'.mem buf').drop (buffer + t.length + 1) = rest ∧
      cptr'.restbuf.length = cptr.restbuf.length ∧ cptr'.hasRestbuf = cptr.hasRestbuf ∧
      (buf' = none ↔ buf = none) ∧ cptr'.waitlen = 0 ∧
      cptr'.parsed = (close [] t).foldl (fun s line => (serverParse s line).1)
        cptr.parsed := by
  have hfind : findEol (({ cptr with waitlen := 0 } : PacketClient σ).mem buf) buffer
      (t.length + (n + 1)) 0 = (t.length, n, false) :=
    (@findEol_line _ buffer n c hc t rest 0 hmem ht).trans (by rw [Nat.zero_add])
  have hrest : (cptr.mem buf).drop (buffer + t.length + 1) = rest := by
    rw [Nat.add_assoc, ← List.drop_drop, hmem, ← List.drop_drop, List.drop_left]
    rfl
  simp only [dopacketLoop, hfind]
  rw [if_neg (by omega)]
  by_cases hnil : t = []
  · subst hnil
    rw [if_neg (by simp), if_pos (by simp)]
    exact ⟨_, buf, rfl, hrest, rfl, rfl, Iff.rfl, rfl, by rw [close_nil]; rfl⟩
  · rw [if_pos ⟨List.length_pos_of_ne_nil hnil, by simp⟩]
    generalize hcz : ({ cptr with waitlen := 0 } : PacketClient σ) = cz
    have hmemz : cz.mem buf = cptr.mem buf := by rw [← hcz]; rfl
    obtain ⟨restbuf, hterm, hlen⟩ := terminate_eq cz buf (buffer + t.length)
    have hbuf := terminate_buf cz buf (buffer + t.length)
    obtain ⟨hline, hnext⟩ := @terminate_line σ cz buf buffer t rest c (hmemz ▸ hmem)
    generalize cz.terminate buf (buffer + t.length) = r at *
    obtain ⟨cptr', buf'⟩ := r
    simp only at hterm hbuf hline hnext
    simp only [hline, hparse]
    rw [if_neg (by decide)]
    refine ⟨_, buf', rfl, hnext, ?_, ?_, hbuf, ?_, ?_⟩
    · rw [hterm]
      show restbuf.length = _
      rw [hlen, ← hcz]
    · rw [hterm, ← hcz]
    · rw [hterm, ← hcz]
    · rw [hterm, ← hcz, close_of_ne_nil _ hnil]
      rfl

/-- The loop hands out the segments of its data, and the remainder waits, unless it
is in `restbuf` and longer than what was in front of it. -/
theorem dopacketLoop_lines (hparse : ∀ s line, (serverParse s line).2 = 0)
    (data : List UInt8) :
    ∀ {fuel : Nat} {cptr : PacketClient σ} {buf : PacketBuf} {buffer : Nat}
      {junk : List UInt8},
      data.length ≤ fuel → data.length ≤ restbufSize →
      (cptr.mem buf).drop buffer = data ++ junk →
      (cptr.hasRestbuf = true → cptr.restbuf.length = restbufSize) →
      (buf = none → cptr.hasRestbuf = true) →
      (data = [] → cptr.waitlen = 0) →
      PassEnds (buf = none → M.Moves (buffer + data.length) (remainder isEol data).length)
        ((segments isEol data).foldl (fun s line => (serverParse s line).1) cptr.parsed)
        (remainder isEol data)
        (dopacketLoop M serverParse fuel cptr buf buffer data.length) := by
  induction data using lines_induction isEol with
  | text t ht =>
      intro fuel cptr buf buffer junk hfuel hfit hmem hsize hbuf hnil
      rw [(segments_of_text ht).1, (segments_of_text ht).2]
      rcases eq_or_ne t [] with rfl | hne
      · rw [List.length_nil, dopacketLoop_zero]
        have hz := hnil rfl
        exact .of_waiting (fun _ => M.moves_zero _)
          ⟨hsize, fun h => by omega, hz, by rw [hz]; rfl⟩ rfl
      · obtain ⟨k, rfl⟩ : ∃ k, fuel = k + 1 := ⟨fuel - 1, by
          have := List.length_pos_of_ne_nil hne
          omega⟩
        rw [dopacketLoop_text hmem ht hne]
        exact @keepRest_waiting _ M { cptr with waitlen := 0 } _ _ _ _ hsize hbuf hmem hne hfit
  | line t c ys ht hc ih =>
      intro fuel cptr buf buffer junk hfuel hfit hmem hsize hbuf _
      rw [List.length_append, List.length_cons] at hfuel hfit ⊢
      obtain ⟨k, rfl⟩ : ∃ k, fuel = k + 1 := ⟨fuel - 1, by omega⟩
      rw [List.append_assoc, List.cons_append] at hmem
      obtain ⟨cptr', buf', hloop, hmem', hlen, hhas, hbuf', hwait, hparsed⟩ :=
        @dopacketLoop_line _ M _ hparse k ys.length cptr buf buffer t (ys ++ junk) c hc hmem ht
      rw [hloop, (segments_append_cons t ys hc).1, (segments_append_cons t ys hc).2,
        (segments_of_text ht).1, (segments_of_text ht).2, List.foldl_append, ← hparsed, ← hbuf',
        show buffer + (t.length + (ys.length + 1)) = buffer + t.length + 1 + ys.length by omega]
      refine ih (by omega) (by omega) hmem' (fun h => ?_) (fun h => ?_) fun _ => hwait
      · rw [hlen]
        exact hsize (hhas ▸ h)
      · rw [hhas]
        exact hbuf (hbuf'.mp h)

/-! ## Packets -/

/-- A packet is put behind what waits, and clearing what is behind them leaves
both. -/
theorem packet_behind {cptr : PacketClient σ} {rest : List UInt8} (packet : List UInt8)
    (h : Waiting cptr rest) (hpos : 0 < cptr.waitlen)
    (hfit : rest.length + packet.length ≤ readbufSize * 4) :
    let length := packet.length + cptr.waitlen
    let restbuf := blit (blit cptr.restbuf cptr.waitlen packet) length
      (List.replicate (readbufSize * 4 - length) 0)
    (∃ junk, restbuf = rest ++ packet ++ junk) ∧ restbuf.length = cptr.restbuf.length := by
  intro length restbuf
  have hroom : readbufSize * 4 ≤ restbufSize := by decide
  have hwait := h.waitlen
  have hsize := h.size (h.created hpos)
  have htake := @take_blit cptr.restbuf packet cptr.waitlen (by omega)
  have hblit := @length_blit cptr.restbuf packet cptr.waitlen (by omega)
  have hlen : length = (rest ++ packet).length := by
    rw [List.length_append]
    omega
  have hdata : restbuf.take length = rest ++ packet := by
    show ((blit cptr.restbuf cptr.waitlen packet).take length ++ _ ++ _).take length = _
    rw [List.append_assoc, List.take_left' (by
      rw [List.length_take, hblit]
      omega), show length = cptr.waitlen + packet.length by omega, htake, h.rest]
  have hclear : restbuf.length = (blit cptr.restbuf cptr.waitlen packet).length :=
    length_blit (by
      rw [List.length_replicate, hblit]
      omega)
  exact ⟨⟨restbuf.drop length, by rw [← hdata, List.take_append_drop]⟩, hclear.trans hblit⟩

/-- What is left after a packet can be copied to where it waits: it is in the packet,
or no longer than what is in front of it in `restbuf`. -/
def Kept (M : Memcpy) (rest packet : List UInt8) : Prop :=
  rest = [] ∨ M.Moves (rest.length + packet.length) (remainder isEol (rest ++ packet)).length

instance (M : Memcpy) (rest packet : List UInt8) : Decidable (Kept M rest packet) :=
  inferInstanceAs (Decidable (_ ∨ _))

/-- A packet behind what waits is one stretch of data. -/
theorem serverDopacket_lines (hparse : ∀ s line, (serverParse s line).2 = 0)
    {cptr : PacketClient σ} {rest packet : List UInt8} (h : Waiting cptr rest)
    (hfit : rest.length + packet.length ≤ readbufSize * 4) :
    PassEnds (Kept M rest packet)
      ((segments isEol (rest ++ packet)).foldl (fun s line => (serverParse s line).1)
        cptr.parsed)
      (remainder isEol (rest ++ packet)) (serverDopacket M serverParse cptr packet) := by
  have hroom : readbufSize * 4 ≤ restbufSize := by decide
  have hwait := h.waitlen
  rw [serverDopacket]
  split
  · next hpos =>
      have hne : rest ≠ [] := List.ne_nil_of_length_pos (by omega)
      have hsize := h.size (h.created hpos)
      obtain ⟨⟨junk, hdata⟩, hlength⟩ := packet_behind packet h hpos hfit
      have hlen : packet.length + cptr.waitlen = (rest ++ packet).length := by
        rw [List.length_append]
        omega
      dsimp only at hdata hlength ⊢
      generalize blit (blit cptr.restbuf cptr.waitlen packet) _ _ = restbuf at *
      have hpass := @dopacketLoop_lines _ M _ hparse (rest ++ packet) _
        { cptr with restbuf := restbuf } none 0 junk (Nat.le_refl _)
        (by rw [List.length_append]; omega) hdata (fun _ => hlength.trans hsize)
        (fun _ => h.created hpos) fun hnil => absurd (List.append_eq_nil_iff.mp hnil).1 hne
      have hkept : Kept M rest packet ↔ ((none : PacketBuf) = none →
          M.Moves (0 + (rest ++ packet).length) (remainder isEol (rest ++ packet)).length) := by
        rw [Kept, or_iff_right hne, Nat.zero_add, List.length_append]
        exact ⟨fun hm _ => hm, fun hm => hm rfl⟩
      rw [hlen, hkept]
      exact hpass
  · next hz =>
      have hnil : rest = [] := List.length_eq_zero_iff.mp (by omega)
      subst hnil
      have hpass := @dopacketLoop_lines _ M _ hparse packet _ cptr (some packet) 0 []
        (Nat.le_refl _) (by omega)
        (show packet.drop 0 = packet ++ [] by rw [List.append_nil, List.drop_zero]) h.size nofun
        fun _ => by omega
      rw [List.nil_append]
      exact ⟨fun _ => hpass.waits nofun, fun hno => absurd (.inl rfl) hno⟩

/-- Every packet fits into `restbuf` behind what waits when it comes. -/
def PacketsFit : List UInt8 → List (List UInt8) → Prop
  | _, [] => True
  | seen, packet :: packets =>
      (remainder isEol seen).length + packet.length ≤ readbufSize * 4 ∧
        PacketsFit (seen ++ packet) packets

/-- What every packet leaves can be copied to where it waits. -/
def PacketsKept (M : Memcpy) : List UInt8 → List (List UInt8) → Prop
  | _, [] => True
  | seen, packet :: packets =>
      Kept M (remainder isEol seen) packet ∧ PacketsKept M (seen ++ packet) packets

theorem foldlM_serverDopacket_lines (hparse : ∀ s line, (serverParse s line).2 = 0) :
    ∀ (packets : List (List UInt8)) {seen : List UInt8} {cptr : PacketClient σ},
      Waiting cptr (remainder isEol seen) → PacketsFit seen packets →
      PassEnds (PacketsKept M seen packets)
        ((segments isEol (remainder isEol seen ++ packets.flatten)).foldl
          (fun s line => (serverParse s line).1) cptr.parsed)
        (remainder isEol (seen ++ packets.flatten))
        (packets.foldlM (serverDopacket M serverParse) cptr) := by
  intro packets
  induction packets with
  | nil =>
      intro seen cptr h _
      obtain ⟨ps, -, -, -, htext⟩ := eq_append_remainder isEol seen
      rw [List.flatten_nil, List.append_nil, List.append_nil, (segments_of_text htext).1]
      exact .of_waiting trivial h rfl
  | cons packet packets ih =>
      intro seen cptr h hfit
      have hpass := @serverDopacket_lines _ M _ hparse _ _ packet h hfit.1
      rw [List.foldlM_cons, List.flatten_cons, ← List.append_assoc (remainder isEol seen),
        ← List.append_assoc seen,
        (segments_append (remainder isEol seen ++ packet) packets.flatten).1,
        List.foldl_append, ← (segments_append seen packet).2]
      by_cases hkept : Kept M (remainder isEol seen) packet
      · obtain ⟨cptr', hstep, hwait, hparsed⟩ := hpass.waits hkept
        rw [← (segments_append seen packet).2] at hwait
        have hrest := ih hwait hfit.2
        rw [hparsed] at hrest
        rw [hstep, PacketsKept, and_iff_right hkept]
        exact hrest
      · rw [hpass.overlap hkept]
        exact ⟨fun h => absurd h.1 hkept, fun _ => rfl⟩

/-- Two ways of cutting a stream into packets hand the same lines to
`server_parse`, the non-empty segments of the stream, and the remainder waits,
exactly when in both what is left after a packet can be copied to where it waits. -/
theorem serverDopacket_packets (hparse : ∀ s line, (serverParse s line).2 = 0)
    {cptr : PacketClient σ} (hwait : cptr.waitlen = 0)
    (hsize : cptr.hasRestbuf = true → cptr.restbuf.length = restbufSize)
    {stream : List UInt8} {c d : List (List UInt8)} (hc : c.flatten = stream)
    (hd : d.flatten = stream) (hcfit : PacketsFit [] c) (hdfit : PacketsFit [] d) :
    (∃ c' d', c.foldlM (serverDopacket M serverParse) cptr = some c' ∧
      d.foldlM (serverDopacket M serverParse) cptr = some d' ∧
      c'.parsed = d'.parsed ∧
      c'.parsed = (segments isEol stream).foldl (fun s line => (serverParse s line).1)
        cptr.parsed ∧
      c'.restbuf.take c'.waitlen = remainder isEol stream ∧
      d'.restbuf.take d'.waitlen = remainder isEol stream) ↔
    PacketsKept M [] c ∧ PacketsKept M [] d := by
  have hstart : Waiting cptr (remainder isEol []) := by
    rw [remainder_nil]
    exact ⟨hsize, fun h => by omega, hwait, by rw [hwait]; rfl⟩
  have hcends := @foldlM_serverDopacket_lines _ M _ hparse c _ _ hstart hcfit
  have hdends := @foldlM_serverDopacket_lines _ M _ hparse d _ _ hstart hdfit
  rw [remainder_nil, List.nil_append, hc] at hcends
  rw [remainder_nil, List.nil_append, hd] at hdends
  constructor
  · rintro ⟨c', d', hc', hd', -⟩
    refine ⟨by_contra fun hno => ?_, by_contra fun hno => ?_⟩
    · cases hc'.symm.trans (hcends.overlap hno)
    · cases hd'.symm.trans (hdends.overlap hno)
  · rintro ⟨hckept, hdkept⟩
    obtain ⟨c', hc', hcw, hcp⟩ := hcends.waits hckept
    obtain ⟨d', hd', hdw, hdp⟩ := hdends.waits hdkept
    exact ⟨c', d', hc', hd', hcp.trans hdp.symm, hcp, hcw.rest, hdw.rest⟩

end PacketLines

/-- A CR and an LF in different packets, and half a line that waits. -/
theorem serverDopacket_packets_ping :
    let cptr : PacketClient (List (List UInt8)) := ⟨[], false, 0, []⟩
    let step := serverDopacket .undefined fun s line => (s ++ [line], 0)
    let c := [[0x50, 0x49, 0x4e, 0x47, 0x0d], [0x0a, 0x41], [0x0a, 0x42]]
    let d := [[0x50, 0x49], [0x4e, 0x47, 0x0d, 0x0a, 0x41, 0x0a, 0x42]]
    ∃ c' d', c.foldlM step cptr = some c' ∧ d.foldlM step cptr = some d' ∧
      c'.parsed = d'.parsed ∧
      c'.parsed = (segments isEol c.flatten).foldl (fun s line => s ++ [line]) [] ∧
      c'.restbuf.take c'.waitlen = remainder isEol c.flatten ∧
      d'.restbuf.take d'.waitlen = remainder isEol c.flatten := by
  intro cptr step c d
  exact (serverDopacket_packets (fun _ _ => rfl) rfl (@waiting_fresh _ cptr rfl rfl).size rfl rfl
    (c := c) (d := d) ⟨by decide, by decide, by decide, trivial⟩
    ⟨by decide, by decide, trivial⟩).mpr
    ⟨⟨by decide, by decide, by decide, trivial⟩, ⟨by decide, by decide, trivial⟩⟩

/-- A line that waits, and with its end half of a longer one. -/
theorem serverDopacket_packets_overlap :
    let cptr : PacketClient (List (List UInt8)) := ⟨[], false, 0, []⟩
    let step := serverDopacket .undefined fun s line => (s ++ [line], 0)
    let c := [[0x41], [0x0a, 0x42, 0x43, 0x44]]
    let d := [[0x41, 0x0a, 0x42, 0x43, 0x44]]
    c.flatten = d.flatten ∧ PacketsFit [] c ∧ PacketsFit [] d ∧
      ¬∃ c' d', c.foldlM step cptr = some c' ∧ d.foldlM step cptr = some d' ∧
        c'.parsed = d'.parsed ∧ c'.parsed = [[0x41]] ∧
        c'.restbuf.take c'.waitlen = [0x42, 0x43, 0x44] ∧
        d'.restbuf.take d'.waitlen = [0x42, 0x43, 0x44] := by
  intro cptr step c d
  refine ⟨rfl, ⟨by decide, by decide, trivial⟩, ⟨by decide, trivial⟩, ?_⟩
  have hends := @foldlM_serverDopacket_lines _ .undefined (fun s line => (s ++ [line], 0))
    (fun _ _ => rfl) c [] cptr (waiting_fresh rfl rfl) ⟨by decide, by decide, trivial⟩
  rintro ⟨c', -, hc', -⟩
  cases hc'.symm.trans (hends.overlap fun hkept => absurd hkept.2.1 (by decide))

end TrIrcd
