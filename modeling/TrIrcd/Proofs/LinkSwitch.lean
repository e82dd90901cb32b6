import TrIrcd.Lib.Run
import TrIrcd.Proofs.LinkLines

/-!
# Switching to encrypted input

A `server_parse` that answers `RC4_NEXT_BUFFER` at one line turns the stream
behind that line into another one. `linkAt` is the link after a prefix of the
stream: the lines and the tail so far, and how much of the keystream is used.
`feed` follows it whether the switch lies in the packet, before it or behind
it (`binaryDopacket_linkAt`): the rest of the packet with the switch is
decrypted where it is, later packets when they come, and the keystream does
not notice the difference.

So packet boundaries matter only where `restbuf` has no room for a packet, or the
tail that it leaves cannot be copied to where it waits (`PacketsRoom`). The line
is over with its first CR or LF: a second one belongs to what is decrypted.
-/

namespace TrIrcd

open TrIrcd.Lib

namespace Link

/-- A `server_parse` that takes the lines in order and answers
`RC4_NEXT_BUFFER` at line `k`, and `other` elsewhere. -/
def switchAt (k : Nat) (other : List (List UInt8) → Int) :
    LinkParser (List (List UInt8)) where
  serverParse lines line :=
    (lines ++ [line], if lines.length = k then rc4NextBuffer else other lines)
  isRc4In lines := k < lines.length
  zipIn _ := false

section Switch

variable {k : Nat} {other : List (List UInt8) → Int}
  (hother : ∀ lines, other lines ≠ clientExited ∧ other lines ≠ rc4NextBuffer)
include hother

theorem feed_parse {fuel : Nat} {lines : List (List UInt8)} {rc4 : Rc4State}
    {t rest : List UInt8} {c : UInt8} (ht : ∀ c ∈ t, isEol c = false) (hne : t ≠ [])
    (hc : isEol c = true) :
    feed (switchAt k other) (fuel + 1) ⟨lines, rc4⟩ (t ++ c :: rest) =
      if lines.length = k then
        feed (switchAt k other) fuel ⟨lines ++ [t], (rc4ProcessStream rc4 rest).1⟩
          (rc4ProcessStream rc4 rest).2
      else feed (switchAt k other) fuel ⟨lines ++ [t], rc4⟩ rest := by
  rw [feed_line fuel _ ht hc, if_neg hne]
  by_cases hk : lines.length = k
  · simp [switchAt, hk, rc4NextBuffer, clientExited]
  · simp [switchAt, hk, hother]

/-- Lines on either side of the switch. -/
theorem feed_quiet (data : List UInt8) :
    ∀ {fuel : Nat} {lines : List (List UInt8)} {rc4 : Rc4State}, data.length ≤ fuel →
      (lines.length + (segments isEol data).length ≤ k ∨ k < lines.length) →
      feed (switchAt k other) fuel ⟨lines, rc4⟩ data =
        (⟨lines ++ segments isEol data, rc4⟩, remainder isEol data) := by
  induction data using lines_induction isEol with
  | text t ht =>
      intro fuel lines rc4 hfuel _
      rw [(segments_of_text ht).1, (segments_of_text ht).2, List.append_nil]
      cases fuel with
      | zero => rw [List.length_eq_zero_iff.mp (Nat.le_zero.mp hfuel)]; rfl
      | succ fuel => exact feed_text fuel _ ht
  | line t c ys ht hc ih =>
      intro fuel lines rc4 hfuel hk
      rw [List.length_append, List.length_cons] at hfuel
      obtain ⟨fuel, rfl⟩ : ∃ n, fuel = n + 1 := ⟨fuel - 1, by omega⟩
      rw [(segments_append_cons t ys hc).1, (segments_of_text ht).1,
        (segments_of_text ht).2] at hk
      rw [(segments_append_cons t ys hc).1, (segments_append_cons t ys hc).2,
        (segments_of_text ht).1, (segments_of_text ht).2]
      rcases eq_or_ne t [] with rfl | hne
      · rw [feed_line fuel _ ht hc, if_pos rfl, close_nil, List.nil_append]
        rw [close_nil, List.nil_append] at hk
        exact ih (by omega) hk
      · rw [close_of_ne_nil [] hne, List.nil_append, List.singleton_append,
          List.length_cons] at hk
        rw [feed_parse hother ht hne hc, if_neg (by omega), close_of_ne_nil [] hne,
          ih (by omega) (by rw [List.length_append, List.length_singleton]; omega)]
        simp

/-- The line that switches, and what is decrypted behind it. -/
theorem feed_switch (plain : List UInt8) {c : UInt8} (hc : isEol c = true) {enc : List UInt8} :
    ∀ {fuel : Nat} {lines : List (List UInt8)} {rc4 : Rc4State},
      (plain ++ c :: enc).length ≤ fuel →
      lines.length + (segments isEol plain).length = k → remainder isEol plain ≠ [] →
      feed (switchAt k other) fuel ⟨lines, rc4⟩ (plain ++ c :: enc) =
        (⟨lines ++ segments isEol (plain ++ [c]) ++
            segments isEol (rc4ProcessStream rc4 enc).2, (rc4ProcessStream rc4 enc).1⟩,
          remainder isEol (rc4ProcessStream rc4 enc).2) := by
  induction plain using lines_induction isEol with
  | text t ht =>
      intro fuel lines rc4 hfuel hk hne
      rw [(segments_of_text ht).1, List.length_nil, Nat.add_zero] at hk
      rw [(segments_of_text ht).2] at hne
      rw [List.length_append, List.length_cons] at hfuel
      obtain ⟨fuel, rfl⟩ : ∃ n, fuel = n + 1 := ⟨fuel - 1, by omega⟩
      have hlen : (rc4ProcessStream rc4 enc).2.length ≤ fuel := by
        rw [length_rc4ProcessStream]
        omega
      rw [feed_parse hother ht hne hc, if_pos hk, feed_quiet hother _ hlen
        (.inr (by rw [List.length_append, List.length_singleton]; omega))]
      simp [(segments_append_cons t [] hc).1, (segments_of_text ht).1,
        (segments_of_text ht).2, close_of_ne_nil [] hne]
  | line t d ys ht hd ih =>
      intro fuel lines rc4 hfuel hk hne
      rw [(segments_append_cons t ys hd).1, (segments_of_text ht).1,
        (segments_of_text ht).2] at hk
      rw [(segments_append_cons t ys hd).2] at hne
      simp only [List.length_append, List.length_cons] at hfuel
      obtain ⟨fuel, rfl⟩ : ∃ n, fuel = n + 1 := ⟨fuel - 1, by omega⟩
      have hlen : (ys ++ c :: enc).length ≤ fuel := by
        rw [List.length_append, List.length_cons]
        omega
      have hplain : segments isEol (t ++ d :: ys ++ [c]) =
          close [] t ++ segments isEol (ys ++ [c]) := by
        rw [List.append_assoc, List.cons_append, (segments_append_cons t (ys ++ [c]) hd).1,
          (segments_of_text ht).1, (segments_of_text ht).2]
      rw [hplain, List.append_assoc t, List.cons_append]
      rcases eq_or_ne t [] with rfl | hnet
      · rw [close_nil, List.nil_append] at hk
        rw [feed_line fuel _ ht hd, if_pos rfl, close_nil, List.nil_append]
        exact ih hlen hk hne
      · rw [close_of_ne_nil [] hnet, List.nil_append, List.singleton_append,
          List.length_cons] at hk
        rw [feed_parse hother ht hnet hd, if_neg (by omega), close_of_ne_nil [] hnet,
          ih hlen (by rw [List.length_append, List.length_singleton]; omega) hne]
        simp

end Switch

/-! ## The stream -/

section Stream

variable (plain : List UInt8) (c : UInt8) (rc4 : Rc4State)

/-- The link after `seen`, where `c` ends the line that switches. -/
def linkAt (seen : List UInt8) : LinkWorld (List (List UInt8)) × List UInt8 :=
  if seen.length ≤ plain.length then (⟨segments isEol seen, rc4⟩, remainder isEol seen)
  else
    let s := rc4ProcessStream rc4 (seen.drop (plain.length + 1))
    (⟨segments isEol (plain ++ [c]) ++ segments isEol s.2, s.1⟩, remainder isEol s.2)

variable {plain c rc4}

theorem linkAt_plain {seen : List UInt8} (h : seen <+: plain) :
    linkAt plain c rc4 seen = (⟨segments isEol seen, rc4⟩, remainder isEol seen) :=
  if_pos h.length_le

theorem linkAt_enc (e : List UInt8) :
    linkAt plain c rc4 (plain ++ c :: e) =
      (⟨segments isEol (plain ++ [c]) ++ segments isEol (rc4ProcessStream rc4 e).2,
        (rc4ProcessStream rc4 e).1⟩, remainder isEol (rc4ProcessStream rc4 e).2) := by
  have hdrop : (plain ++ c :: e).drop (plain.length + 1) = e := by
    rw [← List.drop_drop, List.drop_left]
    rfl
  rw [linkAt, if_neg (by simp), hdrop]

variable (plain rc4) in
/-- The tail of `seen`, which is decrypted behind `plain` and one line end. -/
def tailAt (seen : List UInt8) : List UInt8 :=
  if seen.length ≤ plain.length then remainder isEol seen
  else remainder isEol (rc4ProcessStream rc4 (seen.drop (plain.length + 1))).2

theorem linkAt_tail (seen : List UInt8) : (linkAt plain c rc4 seen).2 = tailAt plain rc4 seen := by
  rw [linkAt, tailAt]
  split <;> rfl

variable (M : Memcpy) (plain rc4) in
/-- `restbuf` has room for every packet, and the tail that one behind a tail leaves can
be copied to where it waits. -/
def PacketsRoom : List UInt8 → List (List UInt8) → Prop
  | _, [] => True
  | seen, packet :: packets =>
      (if tailAt plain rc4 seen = [] then (tailAt plain rc4 (seen ++ packet)).length ≤ restbufSize
        else (tailAt plain rc4 seen).length + packet.length ≤ readbufSize * 4 ∧
          M.Moves ((tailAt plain rc4 seen).length + packet.length)
            (tailAt plain rc4 (seen ++ packet)).length) ∧
      PacketsRoom (seen ++ packet) packets

/-- A prefix of the stream ends before the switch or behind it. -/
theorem prefix_cases {xs enc : List UInt8} (h : xs <+: plain ++ c :: enc) :
    xs <+: plain ∨ ∃ e, xs = plain ++ c :: e := by
  rcases List.prefix_or_prefix_of_prefix h (List.prefix_append plain (c :: enc)) with
    h' | ⟨e, rfl⟩
  · exact .inl h'
  · cases e with
    | nil => exact .inl (by simp)
    | cons b e =>
        obtain ⟨rfl, -⟩ := List.cons_prefix_cons.mp ((List.prefix_append_right_inj _).mp h)
        exact .inr ⟨e, rfl⟩

theorem length_segments_le {xs ys : List UInt8} (h : xs <+: ys) :
    (segments isEol xs).length ≤ (segments isEol ys).length := by
  obtain ⟨zs, rfl⟩ := h
  rw [(segments_append xs zs).1, List.length_append]
  omega

variable {M : Memcpy} {other : List (List UInt8) → Int}
  (hother : ∀ lines, other lines ≠ clientExited ∧ other lines ≠ rc4NextBuffer)
  (hc : isEol c = true) (hline : remainder isEol plain ≠ [])
include hother hc hline

/-- A packet of the stream, whatever it is decrypted with and wherever the
switch is. -/
theorem binaryDopacket_linkAt {cptr : LinkClient (List (List UInt8))}
    {seen packet enc : List UInt8} (h : Carries cptr (linkAt plain c rc4 seen))
    (hpre : seen ++ packet <+: plain ++ c :: enc) :
    let P := switchAt (segments isEol plain).length other
    ∃ cptr₁ w text, binaryDopacket M P cptr packet = serverDopacket M P cptr₁ text ∧
      Carries cptr₁ (w, (linkAt plain c rc4 seen).2) ∧ text.length = packet.length ∧
      feedPacket P (w, (linkAt plain c rc4 seen).2) text =
        linkAt plain c rc4 (seen ++ packet) := by
  intro P
  rcases prefix_cases ((List.prefix_append seen packet).trans hpre) with hseen | ⟨e, rfl⟩
  · -- The packet starts in front of the switch, and is not decrypted.
    have hk := length_segments_le hseen
    rw [linkAt_plain hseen] at h ⊢
    refine ⟨cptr, ⟨segments isEol seen, rc4⟩, packet, ?_, h, rfl, ?_⟩
    · rw [binaryDopacket, if_neg]
      rw [h.parsed]
      simpa [P, switchAt] using hk
    · obtain ⟨hseg, hrem⟩ := @segments_append _ isEol seen packet
      rcases prefix_cases hpre with hpacket | ⟨e, he⟩
      · have hk' := length_segments_le hpacket
        rw [hseg, List.length_append] at hk'
        rw [linkAt_plain hpacket, hseg, hrem, feedPacket]
        exact feed_quiet hother _ (Nat.le_refl _) (.inl hk')
      · obtain ⟨x, rfl⟩ := hseen
        obtain rfl : packet = x ++ c :: e := by simpa using he
        obtain ⟨hsegx, hremx⟩ := @segments_append _ isEol seen x
        rw [hremx] at hline
        rw [he, linkAt_enc, feedPacket, ← List.append_assoc]
        rw [feed_switch hother _ hc (Nat.le_refl _)
          (by rw [hsegx, List.length_append]) hline, List.append_assoc seen,
          (segments_append seen (x ++ [c])).1, List.append_assoc (remainder isEol seen)]
  · -- It starts behind the switch.
    have hlines : (segments isEol plain).length < (segments isEol (plain ++ [c])).length := by
      rw [(segments_append_cons plain [] hc).1, close_of_ne_nil _ hline]
      simp
    rw [linkAt_enc] at h ⊢
    refine ⟨{ cptr with parsed := { cptr.parsed with
        rc4In := (rc4ProcessStream cptr.parsed.rc4In packet).1 } },
      { cptr.parsed with rc4In := (rc4ProcessStream cptr.parsed.rc4In packet).1 }, _, ?_,
      ⟨⟨h.waiting.size, h.waiting.created, h.waiting.waitlen, h.waiting.rest⟩, rfl⟩,
      length_rc4ProcessStream cptr.parsed.rc4In packet, ?_⟩
    · rw [binaryDopacket, if_pos]
      rw [h.parsed]
      simp only [P, switchAt, decide_eq_true_eq, List.length_append]
      omega
    · rw [List.append_assoc, List.cons_append, linkAt_enc, feedPacket, h.parsed]
      rw [feed_quiet hother _ (Nat.le_refl _)
        (.inr (by rw [List.length_append]; omega)), rc4ProcessStream_append]
      obtain ⟨hseg, hrem⟩ := @segments_append _ isEol (rc4ProcessStream rc4 e).2
        (rc4ProcessStream (rc4ProcessStream rc4 e).1 packet).2
      rw [hseg, hrem, List.append_assoc]

/-- A run goes through exactly when there is room, and the packets make no
difference for where it ends. -/
theorem run_linkAt {enc : List UInt8} (packets : List (List UInt8)) :
    ∀ {seen : List UInt8} {cptr : LinkClient (List (List UInt8))},
      Carries cptr (linkAt plain c rc4 seen) → seen ++ packets.flatten = plain ++ c :: enc →
      let step := binaryDopacket M (switchAt (segments isEol plain).length other)
      (PacketsRoom plain rc4 M seen packets → ∃ cptr', run step cptr packets = .ok cptr' ∧
        Carries cptr' (linkAt plain c rc4 (plain ++ c :: enc))) ∧
      (¬PacketsRoom plain rc4 M seen packets → ∀ cptr', run step cptr packets ≠ .ok cptr') := by
  induction packets with
  | nil =>
      intro seen cptr h hflat
      rw [List.flatten_nil, List.append_nil] at hflat
      rw [← hflat]
      exact ⟨fun _ => ⟨cptr, rfl, h⟩, fun hroom => absurd trivial hroom⟩
  | cons packet packets ih =>
      intro seen cptr h hflat step
      rw [List.flatten_cons, ← List.append_assoc] at hflat
      obtain ⟨cptr₁, w, text, hstep, hcarries, hlen, hfeed⟩ :=
        binaryDopacket_linkAt hother hc hline h ⟨_, hflat⟩
      have hroom : Room (switchAt (segments isEol plain).length other) M
          (w, (linkAt plain c rc4 seen).2) text ↔
          if tailAt plain rc4 seen = [] then
            (tailAt plain rc4 (seen ++ packet)).length ≤ restbufSize
          else (tailAt plain rc4 seen).length + packet.length ≤ readbufSize * 4 ∧
            M.Moves ((tailAt plain rc4 seen).length + packet.length)
              (tailAt plain rc4 (seen ++ packet)).length := by
        have htail := @linkAt_tail plain c rc4 (seen ++ packet)
        rw [← hfeed] at htail
        rw [← htail, ← hlen, ← @linkAt_tail plain c rc4 seen]
        constructor
        · rintro ⟨hnil, hne, hmoves⟩
          split
          · next h => exact hnil h
          · next h => exact ⟨hne h, hmoves h⟩
        · intro hif
          refine ⟨fun h => by rwa [if_pos h] at hif, fun h => ?_, fun h => ?_⟩
          · rw [if_neg h] at hif
            exact hif.1
          · rw [if_neg h] at hif
            exact hif.2
      rw [PacketsRoom, ← hroom]
      constructor
      · rintro ⟨hpacket, hpackets⟩
        obtain ⟨m, hm, hmcarries⟩ := serverDopacket_room hcarries hpacket
        rw [hfeed] at hmcarries
        obtain ⟨cptr', hrun, hcarries'⟩ := (ih hmcarries hflat).1 hpackets
        exact ⟨cptr', run_cons_ok.mpr ⟨m, hstep.trans hm, hrun⟩, hcarries'⟩
      · intro hno cptr' hrun
        obtain ⟨m, hm, hrun⟩ := run_cons_ok.mp hrun
        have hm' := hstep.symm.trans hm
        by_cases hpacket : Room (switchAt (segments isEol plain).length other) M
          (w, (linkAt plain c rc4 seen).2) text
        · obtain ⟨m', hm'', hmcarries⟩ := serverDopacket_room hcarries hpacket
          rw [hfeed] at hmcarries
          cases hm'.symm.trans hm''
          exact (ih hmcarries hflat).2 (fun hpackets => hno ⟨hpacket, hpackets⟩) cptr' hrun
        · obtain ⟨e, he⟩ := serverDopacket_no_room hcarries hpacket
          cases he.symm.trans hm'

end Stream

/-- Two ways of cutting a stream into packets hand the same lines to
`server_parse`, those in front of the switch and those that the rest decrypts
to, exactly when in both there is room and every tail can be kept. A line feed
behind the carriage return is decrypted with the rest. -/
theorem binaryDopacket_packets {M : Memcpy} {other : List (List UInt8) → Int}
    (hother : ∀ lines, other lines ≠ clientExited ∧ other lines ≠ rc4NextBuffer)
    {plain term enc : List UInt8} (hline : remainder isEol plain ≠ [])
    (hterm : term ∈ [[0x0d], [0x0a], [0x0d, 0x0a]])
    {cptr : LinkClient (List (List UInt8))} (hwait : Waiting cptr [])
    (hlines : cptr.parsed.parser = []) {c d : List (List UInt8)}
    (hc : c.flatten = plain ++ term ++ enc) (hd : d.flatten = plain ++ term ++ enc) :
    let step := binaryDopacket M (switchAt (segments isEol plain).length other)
    let rc4 := cptr.parsed.rc4In
    (∃ c' d', run step cptr c = .ok c' ∧ run step cptr d = .ok d' ∧
      c'.parsed.parser = d'.parsed.parser ∧
      c'.parsed.parser = segments isEol (plain ++ term) ++
        segments isEol (rc4ProcessStream rc4 enc).2) ↔
    PacketsRoom plain rc4 M [] c ∧ PacketsRoom plain rc4 M [] d ∧
      segments isEol (rc4ProcessStream rc4 (term.tail ++ enc)).2 =
        segments isEol (rc4ProcessStream rc4 enc).2 := by
  intro step rc4
  obtain ⟨e, lf, rfl, he, hlf⟩ : ∃ e lf, term = e :: lf ∧ isEol e = true ∧
      ∀ c ∈ lf, isEol c = true := by
    simp only [List.mem_cons, List.not_mem_nil, or_false] at hterm
    rcases hterm with rfl | rfl | rfl <;> exact ⟨_, _, rfl, rfl, by simp [isEol]⟩
  -- The line is over with its first byte, and what is left of the line end is empty.
  have hplain : segments isEol (plain ++ e :: lf) = segments isEol (plain ++ [e]) := by
    obtain ⟨hseg, -⟩ := segments_eols_append hlf []
    rw [List.append_nil] at hseg
    rw [(segments_append_cons plain lf he).1, (segments_append_cons plain [] he).1, hseg]
  have hstream : plain ++ e :: lf ++ enc = plain ++ e :: (lf ++ enc) := by simp
  have hstart : Carries cptr (linkAt plain e rc4 []) := by
    rw [linkAt_plain List.nil_prefix, segments_nil, remainder_nil]
    exact ⟨hwait, by rw [← hlines]⟩
  obtain ⟨hcroom, hcno⟩ := run_linkAt hother he hline c hstart (hc.trans hstream)
  obtain ⟨hdroom, hdno⟩ := run_linkAt hother he hline d hstart (hd.trans hstream)
  rw [hplain]
  constructor
  · rintro ⟨c', d', hc', hd', -, hparser⟩
    have hcr : PacketsRoom plain rc4 M [] c := by_contra fun hb => hcno hb c' hc'
    have hdr : PacketsRoom plain rc4 M [] d := by_contra fun hb => hdno hb d' hd'
    obtain ⟨c'', hc'', hcarries⟩ := hcroom hcr
    cases hc'.symm.trans hc''
    rw [hcarries.parsed, linkAt_enc] at hparser
    exact ⟨hcr, hdr, List.append_cancel_left hparser⟩
  · rintro ⟨hcr, hdr, hrest⟩
    obtain ⟨c', hc', hccarries⟩ := hcroom hcr
    obtain ⟨d', hd', hdcarries⟩ := hdroom hdr
    refine ⟨c', d', hc', hd', by rw [hccarries.parsed, hdcarries.parsed], ?_⟩
    rw [hccarries.parsed, linkAt_enc, ← hrest]
    rfl

/-- A line, and a byte behind it. -/
theorem binaryDopacket_packets_ping :
    let cptr : LinkClient (List (List UInt8)) := ⟨[], false, 0, [], ⟨id, 0, 0⟩⟩
    let step := binaryDopacket .undefined
      (switchAt (segments isEol [0x41]).length fun _ => 0)
    ∃ c' d', run step cptr [[0x41, 0x0a, 0x42]] = .ok c' ∧
      run step cptr [[0x41], [0x0a], [0x42]] = .ok d' ∧
      c'.parsed.parser = d'.parsed.parser ∧
      c'.parsed.parser = segments isEol ([0x41] ++ [0x0a]) ++
        segments isEol (rc4ProcessStream ⟨id, 0, 0⟩ [0x42]).2 :=
  (binaryDopacket_packets (fun _ => by decide) (by decide) (by decide)
    (waiting_fresh rfl rfl) rfl rfl rfl).mpr
    ⟨⟨by decide, trivial⟩, ⟨by decide, by decide, by decide, trivial⟩, rfl⟩

theorem PacketsRoom.last {M : Memcpy} {plain : List UInt8} {rc4 : Rc4State}
    {packet : List UInt8} :
    ∀ {packets : List (List UInt8)} {seen : List UInt8},
      PacketsRoom plain rc4 M seen (packets ++ [packet]) →
      PacketsRoom plain rc4 M (seen ++ packets.flatten) [packet] := by
  intro packets
  induction packets with
  | nil =>
      intro seen h
      rw [List.flatten_nil, List.append_nil]
      exact h
  | cons p packets ih =>
      intro seen h
      rw [List.flatten_cons, ← List.append_assoc]
      exact ih h.2

/-- A line that waits and fills what there is, and a packet behind it. -/
theorem overrun_of_text {M : Memcpy} {plain : List UInt8} (htext : ∀ c ∈ plain, isEol c = false)
    {c : UInt8} (hc : isEol c = true) {enc : List UInt8} (hne : plain ≠ [])
    (hlen : readbufSize * 4 < plain.length + (c :: enc).length)
    {packets : List (List UInt8)} (hflat : packets.flatten = plain)
    {cptr : LinkClient (List (List UInt8))} (hwait : Waiting cptr [])
    (hlines : cptr.parsed.parser = []) (d' : LinkClient (List (List UInt8))) :
    run (binaryDopacket M (switchAt (segments isEol plain).length fun _ => 0)) cptr
      (packets ++ [c :: enc]) ≠ .ok d' := by
  have hrem : remainder isEol plain = plain := (segments_of_text htext).2
  have hother : ∀ _ : List (List UInt8), (0 : Int) ≠ clientExited ∧ (0 : Int) ≠ rc4NextBuffer :=
    fun _ => by decide
  have hstart : Carries cptr (linkAt plain c cptr.parsed.rc4In []) := by
    rw [linkAt_plain List.nil_prefix, segments_nil, remainder_nil]
    exact ⟨hwait, by rw [← hlines]⟩
  have hstream : [] ++ (packets ++ [c :: enc]).flatten = plain ++ c :: enc := by simp [hflat]
  refine (run_linkAt hother hc (hrem.symm ▸ hne) (packets ++ [c :: enc]) hstart hstream).2
    (fun hroom => ?_) d'
  have hlast := hroom.last.1
  have htail : tailAt plain cptr.parsed.rc4In plain = plain :=
    (if_pos (Nat.le_refl _)).trans hrem
  rw [List.nil_append, hflat, htail, if_neg hne] at hlast
  omega

/-- The line that switches waits, and with its line end comes the byte that does
not fit behind it. -/
theorem binaryDopacket_packets_overrun :
    let cptr : LinkClient (List (List UInt8)) := ⟨[], false, 0, [], ⟨id, 0, 0⟩⟩
    let plain := List.replicate (3 * readbufSize + (readbufSize - 1)) 0x41
    let step := binaryDopacket .ascending (switchAt (segments isEol plain).length fun _ => 0)
    let text := List.replicate 3 (List.replicate readbufSize 0x41) ++
      [List.replicate (readbufSize - 1) 0x41]
    let c := text ++ [[0x0a], [0x42]]
    let d := text ++ [[0x0a, 0x42]]
    c.flatten = plain ++ [0x0a] ++ [0x42] ∧ d.flatten = plain ++ [0x0a] ++ [0x42] ∧
      ¬∃ c' d', run step cptr c = .ok c' ∧ run step cptr d = .ok d' ∧
        c'.parsed.parser = d'.parsed.parser ∧
        c'.parsed.parser = segments isEol (plain ++ [0x0a]) ++
          segments isEol (rc4ProcessStream cptr.parsed.rc4In [0x42]).2 := by
  intro cptr plain step text c d
  have hflat : text.flatten = plain := by
    simp only [text, plain, List.flatten_append, List.flatten_replicate_replicate,
      List.flatten_singleton, List.replicate_append_replicate]
  have hlen : plain.length = 3 * readbufSize + (readbufSize - 1) := List.length_replicate
  refine ⟨by simp [c, hflat], by simp [d, hflat], ?_⟩
  rintro ⟨-, d', -, hd', -⟩
  refine overrun_of_text (fun b hb => ?_) rfl (fun hb => ?_) ?_ hflat (waiting_fresh rfl rfl)
    rfl d' hd'
  · rw [List.eq_of_mem_replicate hb]
    rfl
  · rw [hb] at hlen
    exact absurd hlen (by decide)
  · rw [hlen]
    decide

end Link

end TrIrcd
