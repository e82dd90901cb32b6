import TrIrcd.Proofs.HttpSplit
import TrIrcd.Proofs.UrlDecode

/-!
# Where the web server reads and writes

Both loops over a packet test what stands at a place before they test the
place. So a request line that no `\r` or `\n` ends is read one byte too far,
and so is the last line `parse_client_header` comes to when nothing in the
packet ends it. And neither loop looks at the size of its line buffer: a line
of `HTTPBUFSIZE` bytes, which fits without its NUL, is written one byte too
far. Everything else is inside: where a header is cut, and what `url_decode`
does with the line without a colon (`packetAccesses_inside_iff`).

The loop of `parse_client_header` ends on every packet. The lines it comes to
are the closed segments of the packet up to the first without a colon
(`linesRead`), and `headerLoop_answers` is an induction over them.
-/

namespace TrIrcd

open TrIrcd.Lib

/-! ## The condition -/

/-- The lines up to the first without a colon. -/
def linesRead (lines : List (List UInt8)) : List (List UInt8) :=
  lines.take ((headersOf lines).length + 1)

/-- The lines that are read fit, and the last of them is ended. -/
def LinesFit (buffer : List UInt8) : Prop :=
  (∀ line ∈ linesRead (segments endsLine buffer), line.length < httpBufSize) ∧
    ((∀ line ∈ segments endsLine buffer, 0x3a ∈ line) → remainder endsLine buffer = [])

instance (buffer : List UInt8) : Decidable (LinesFit buffer) :=
  inferInstanceAs (Decidable (_ ∧ _))

/-- The request line fits, and is ended. -/
def RequestFits (packet : List UInt8) : Prop :=
  (requestLine packet).length < httpBufSize ∧ (requestLine packet).length < packet.length

instance (packet : List UInt8) : Decidable (RequestFits packet) :=
  inferInstanceAs (Decidable (_ ∧ _))

section Condition

variable {t ys : List UInt8} {c : UInt8}

theorem linesRead_cons (line : List UInt8) (lines : List (List UInt8)) :
    linesRead (line :: lines) = line :: if 0x3a ∈ line then linesRead lines else [] := by
  rw [linesRead, headersOf, List.take_succ_cons, List.takeWhile_cons]
  by_cases h : 0x3a ∈ line
  · rw [if_pos h, if_pos (decide_eq_true h)]
    rfl
  · rw [if_neg h, if_neg (by simpa using h)]
    rfl

theorem linesFit_text (ht : ∀ d ∈ t, endsLine d = false) : LinesFit t ↔ t = [] := by
  rw [LinesFit, (segments_of_text ht).1, (segments_of_text ht).2]
  simp [linesRead]

theorem linesFit_eol (hc : endsLine c = true) : LinesFit (c :: ys) ↔ LinesFit ys := by
  have h := segments_append_cons [] ys hc
  rw [List.nil_append, segments_nil, remainder_nil, close_nil, List.nil_append] at h
  rw [LinesFit, h.1, h.2, LinesFit]

theorem linesFit_line (ht : ∀ d ∈ t, endsLine d = false) (hne : t ≠ [])
    (hc : endsLine c = true) :
    LinesFit (t ++ c :: ys) ↔ t.length < httpBufSize ∧ (0x3a ∈ t → LinesFit ys) := by
  have h := segments_append_cons t ys hc
  rw [(segments_of_text ht).1, (segments_of_text ht).2, close_of_ne_nil [] hne,
    List.nil_append, List.singleton_append] at h
  rw [LinesFit, h.1, h.2, linesRead_cons, LinesFit, List.forall_mem_cons, List.forall_mem_cons]
  by_cases hcolon : 0x3a ∈ t
  · rw [if_pos hcolon]
    simp only [hcolon, true_and, forall_const, and_assoc]
  · rw [if_neg hcolon]
    simp [hcolon]

end Condition

/-! ## The request line -/

/-- A line is copied, one byte after the other. -/
def copyAccesses : List UInt8 → Nat → Nat → List HttpAccess
  | [], _, _ => []
  | c :: t, i, l => .read .buffer i :: .write .line l c :: copyAccesses t (i + 1) (l + 1)

theorem copyAccesses_inside {length : Nat} (t : List UInt8) :
    ∀ i l, i + t.length ≤ length →
      ((∀ a ∈ copyAccesses t i l, a.Inside length) ↔ t = [] ∨ l + t.length ≤ httpBufSize) := by
  induction t with
  | nil => exact fun _ _ _ => by simp [copyAccesses]
  | cons c t ih =>
      intro i l hi
      rw [List.length_cons] at hi
      rw [copyAccesses, List.forall_mem_cons, List.forall_mem_cons, ih (i + 1) (l + 1) (by omega)]
      have hread : (HttpAccess.read .buffer i).Inside length ↔ True :=
        iff_true_intro (show i < length by omega)
      have hwrite : (HttpAccess.write .line l c).Inside length ↔ l < httpBufSize := Iff.rfl
      rw [hread, hwrite, List.length_cons]
      by_cases hne : t = []
      · subst hne
        simp only [List.length_nil, Nat.add_zero, true_or, and_true, true_and, List.cons_ne_self,
          Nat.zero_add, false_or]
        omega
      · simp only [hne, false_or, true_and, reduceCtorEq]
        omega

/-- A line and its NUL: everything up to the byte that ends it. -/
theorem line_inside {length : Nat} (t : List UInt8) {i : Nat} (hi : i + t.length ≤ length) :
    (∀ a ∈ copyAccesses t i 0 ++ [.read .buffer (i + t.length), .write .line t.length 0],
        a.Inside length) ↔ t.length < httpBufSize ∧ i + t.length < length := by
  rw [List.forall_mem_append, copyAccesses_inside t i 0 hi, List.forall_mem_cons,
    List.forall_mem_singleton]
  show _ ∧ i + t.length < length ∧ t.length < httpBufSize ↔ _
  constructor
  · exact fun h => ⟨h.2.2, h.2.1⟩
  · exact fun h => ⟨.inr (by omega), h.2, h.1⟩

theorem getD_append_cons (pre : List UInt8) (c : UInt8) (ys : List UInt8) :
    (pre ++ c :: ys).getD pre.length 0 = c := by
  simp

theorem requestLoop_text {buffer : List UInt8} {fuel : Nat} (t : List UInt8) :
    ∀ (line rest : List UInt8), buffer = line ++ (t ++ rest) →
      (∀ c ∈ t, c ≠ 0x0d ∧ c ≠ 0x0a) →
      requestLoop buffer (fuel + t.length) line =
        (requestLoop buffer fuel (line ++ t)).map fun (accesses, l) =>
          (copyAccesses t line.length line.length ++ accesses, l) := by
  induction t with
  | nil =>
      intro line rest _ _
      simp [copyAccesses]
  | cons c t ih =>
      intro line rest hb ht
      obtain ⟨hc, ht⟩ := List.forall_mem_cons.mp ht
      have hget : buffer.getD line.length 0 = c := by
        rw [hb, List.cons_append]
        exact getD_append_cons ..
      have hlt : line.length < buffer.length := by
        rw [hb, List.length_append, List.cons_append, List.length_cons]
        omega
      rw [List.length_cons, ← Nat.add_assoc, requestLoop, hget, if_pos ⟨hc, hlt⟩,
        ih (line ++ [c]) rest (by rw [hb]; simp) ht, List.append_assoc, List.singleton_append,
        Option.map_map, List.length_append, List.length_singleton]
      rfl

/-- The loop of `http_dopacket` ends, and has the request line then. -/
theorem requestLoop_answers {packet : List UInt8} {fuel : Nat} (hfuel : packet.length < fuel) :
    ∃ accesses, requestLoop packet fuel [] = some (accesses, requestLine packet) ∧
      ((∀ a ∈ accesses, a.Inside packet.length) ↔ RequestFits packet) := by
  obtain ⟨rest, hsplit, hrest⟩ := requestLine_split packet
  have htext : ∀ c ∈ requestLine packet, c ≠ 0x0d ∧ c ≠ 0x0a := by
    intro c hc
    have := List.mem_takeWhile_imp hc
    simpa using this
  have hlen : (requestLine packet).length ≤ packet.length :=
    (List.takeWhile_prefix _).length_le
  obtain ⟨k, rfl⟩ : ∃ k, fuel = k + 1 + (requestLine packet).length :=
    ⟨fuel - 1 - (requestLine packet).length, by omega⟩
  have hstop : ¬((packet.getD (requestLine packet).length 0 ≠ 0x0d ∧
      packet.getD (requestLine packet).length 0 ≠ 0x0a) ∧
        (requestLine packet).length < packet.length) := by
    rintro ⟨⟨hcr, hlf⟩, hlt⟩
    cases rest with
    | nil =>
        have := congrArg List.length hsplit
        rw [List.append_nil] at this
        omega
    | cons c rest =>
        have hget : packet.getD (requestLine packet).length 0 = c :=
          (congrArg (fun b => List.getD b (requestLine packet).length 0) hsplit).trans
            (getD_append_cons ..)
        rw [hget] at hcr hlf
        exact (hrest c rfl).elim hcr hlf
  refine ⟨copyAccesses (requestLine packet) 0 0 ++
    [.read .buffer (requestLine packet).length, .write .line (requestLine packet).length 0],
    ?_, ?_⟩
  · rw [requestLoop_text (requestLine packet) [] rest hsplit htext, List.nil_append, requestLoop,
      if_neg hstop]
    rfl
  · have h := @line_inside packet.length (requestLine packet) 0
      (by rw [Nat.zero_add]; exact hlen)
    rw [Nat.zero_add] at h
    exact h

/-! ## The headers -/

theorem headerLoop_text {buffer : List UInt8} {fuel : Nat} {length : Int} (hpos : 0 < length)
    (t : List UInt8) :
    ∀ (pre line rest : List UInt8), buffer = pre ++ (t ++ rest) → (∀ c ∈ t, endsLine c = false) →
      headerLoop buffer (fuel + t.length) pre.length line length =
        (headerLoop buffer fuel (pre.length + t.length) (line ++ t) length).map
          (copyAccesses t pre.length line.length ++ ·) := by
  induction t with
  | nil =>
      intro pre line rest _ _
      simp [copyAccesses]
  | cons c t ih =>
      intro pre line rest hb ht
      obtain ⟨hc, ht⟩ := List.forall_mem_cons.mp ht
      have hget : buffer.getD pre.length 0 = c := by
        rw [hb, List.cons_append]
        exact getD_append_cons ..
      have hlt : pre.length < buffer.length := by
        rw [hb, List.length_append, List.cons_append, List.length_cons]
        omega
      have h := ih (pre ++ [c]) (line ++ [c]) rest (by rw [hb]; simp) ht
      rw [List.length_append, List.length_append, List.length_singleton] at h
      have hcopy : (!endsLine c && decide (pre.length < buffer.length)) = true := by
        rw [hc, decide_eq_true hlt]
        rfl
      rw [List.length_cons, ← Nat.add_assoc, headerLoop, if_pos hpos, hget]
      dsimp only
      rw [if_pos hcopy, h, List.append_assoc, List.singleton_append, Option.map_map,
        Nat.add_assoc pre.length 1, Nat.add_comm 1]
      rfl

/-- The end of a line, and the byte behind it that is not copied. -/
theorem headerLoop_end {buffer line : List UInt8} {fuel i : Nat} {length : Int}
    (hpos : 0 < length) (hne : line ≠ [])
    (hstop : (!endsLine (buffer.getD i 0) && decide (i < buffer.length)) = false) :
    headerLoop buffer (fuel + 1) i line length =
      if 0x3a ∈ line then
        (headerLoop buffer fuel i [] (length - line.length)).map
          ([.read .buffer i, .write .line line.length 0] ++ cutAccesses line ++ ·)
      else some ([.read .buffer i, .write .line line.length 0] ++
        urlDecodeAccesses (line ++ [0]) 0 0) := by
  rw [headerLoop, if_pos hpos]
  simp only [hstop]
  rw [if_neg Bool.false_ne_true, if_pos hne]

theorem headerLoop_eol {buffer : List UInt8} {fuel i : Nat} {length : Int} (hpos : 0 < length)
    (hc : endsLine (buffer.getD i 0) = true) :
    headerLoop buffer (fuel + 1) i [] length =
      (headerLoop buffer fuel (i + 1) [] (length - 1)).map ([.read .buffer i] ++ ·) := by
  rw [headerLoop, if_pos hpos]
  simp only [hc]
  rfl

/-- The colon is one of the characters, and behind it stands another or the NUL. -/
theorem cutAccesses_inside {length : Nat} {line : List UInt8} (hlen : line.length < httpBufSize)
    (hcolon : 0x3a ∈ line) : ∀ a ∈ cutAccesses line, a.Inside length := by
  have hc := List.idxOf_lt_length_of_mem hcolon
  have hread : (HttpAccess.read .line (line.idxOf 0x3a + 1)).Inside length := by
    show _ < httpBufSize
    omega
  have hwrite : ∀ i ≤ line.idxOf 0x3a + 1, (HttpAccess.write .line i 0).Inside length := by
    intro i hi
    show i < httpBufSize
    omega
  rw [cutAccesses]
  refine List.forall_mem_cons.mpr ⟨hwrite _ (Nat.le_succ _), List.forall_mem_cons.mpr ⟨hread, ?_⟩⟩
  split
  · exact List.forall_mem_singleton.mpr (hwrite _ (Nat.le_refl _))
  · simp

/-- The loop of `parse_client_header` ends. -/
theorem headerLoop_answers {buffer : List UInt8} (rest : List UInt8) :
    ∀ (pre : List UInt8) (fuel : Nat), buffer = pre ++ rest → 2 * rest.length < fuel →
      ∃ accesses, headerLoop buffer fuel pre.length [] rest.length = some accesses ∧
        ((∀ a ∈ accesses, a.Inside buffer.length) ↔ LinesFit rest) := by
  induction rest using lines_induction endsLine with
  | text t ht =>
      intro pre fuel hb hfuel
      rw [linesFit_text ht]
      by_cases hne : t = []
      · subst hne
        obtain ⟨k, rfl⟩ : ∃ k, fuel = k + 1 := ⟨fuel - 1, by omega⟩
        exact ⟨[], rfl, by simp⟩
      · have hpos : 0 < t.length := List.length_pos_iff.mpr hne
        have hi : pre.length + t.length = buffer.length := by rw [hb, List.length_append]
        obtain ⟨k, rfl⟩ : ∃ k, fuel = k + 1 + 1 + t.length := ⟨fuel - t.length - 2, by omega⟩
        have hout : ∀ as bs : List HttpAccess, ¬∀ a ∈ as ++ (.read .buffer buffer.length :: bs),
            a.Inside buffer.length := by
          intro as bs hall
          have : buffer.length < buffer.length := hall (.read .buffer buffer.length) (by simp)
          omega
        rw [headerLoop_text (by omega) t pre [] [] (by rw [hb, List.append_nil]) ht,
          List.nil_append, hi, headerLoop_end (by omega) hne (by simp)]
        split
        · rw [Int.sub_self]
          exact ⟨_, rfl, iff_of_false (hout _ _) hne⟩
        · exact ⟨_, rfl, iff_of_false (hout _ _) hne⟩
  | line t c ys ht hc ih =>
      intro pre fuel hb hfuel
      rw [List.length_append, List.length_cons] at hfuel
      have hlen : (0 : Int) < (t ++ c :: ys).length := by
        rw [List.length_append, List.length_cons]
        omega
      have hget : buffer.getD (pre.length + t.length) 0 = c := by
        rw [hb, ← List.append_assoc, ← List.length_append]
        exact getD_append_cons ..
      have hnext : pre.length + t.length + 1 = (pre ++ t ++ [c]).length := by
        simp only [List.length_append, List.length_singleton]
      have hi : pre.length + t.length < buffer.length := by
        rw [hb, List.length_append, List.length_append, List.length_cons]
        omega
      by_cases hne : t = []
      · subst hne
        obtain ⟨k, rfl⟩ : ∃ k, fuel = k + 1 := ⟨fuel - 1, by omega⟩
        obtain ⟨as, has, hiff⟩ := ih (pre ++ [] ++ [c]) k (by simp [hb]) (by omega)
        rw [List.length_nil, Nat.add_zero] at hget hnext hi
        have hsub : (([] ++ c :: ys : List UInt8).length : Int) - 1 = ys.length := by
          rw [List.nil_append, List.length_cons]
          omega
        rw [headerLoop_eol hlen (by rw [hget]; exact hc), hnext, hsub, has]
        refine ⟨_, rfl, ?_⟩
        dsimp only
        rw [List.singleton_append, List.forall_mem_cons, hiff, List.nil_append, linesFit_eol hc]
        exact and_iff_right hi
      · have hpos : 0 < t.length := List.length_pos_iff.mpr hne
        obtain ⟨k, rfl⟩ : ∃ k, fuel = k + 1 + 1 + t.length := ⟨fuel - t.length - 2, by omega⟩
        have hinside := @line_inside buffer.length t pre.length (by omega)
        have h0 : 0 ∉ t := by
          intro h
          have := ht 0 h
          simp [endsLine] at this
        rw [headerLoop_text hlen t pre [] (c :: ys) hb ht, List.nil_append, linesFit_line ht hne hc,
          headerLoop_end hlen hne (by rw [hget, hc]; rfl)]
        split
        next hcolon =>
          obtain ⟨as, has, hiff⟩ := ih (pre ++ t ++ [c]) k (by simp [hb]) (by omega)
          have hsub : ((t ++ c :: ys).length : Int) - t.length = ys.length + 1 := by
            rw [List.length_append, List.length_cons]
            omega
          rw [hsub, headerLoop_eol (by omega) (by rw [hget]; exact hc), hnext,
            Int.add_sub_cancel, has]
          refine ⟨_, rfl, ?_⟩
          dsimp only
          simp only [List.forall_mem_append, List.forall_mem_singleton, hiff, List.length_nil]
            at hinside ⊢
          constructor
          · rintro ⟨hcopy, ⟨hend, -⟩, -, hrest⟩
            exact ⟨(hinside.mp ⟨hcopy, hend⟩).1, fun _ => hrest⟩
          · rintro ⟨hshort, hrest⟩
            obtain ⟨hcopy, hend⟩ := hinside.mpr ⟨hshort, hi⟩
            exact ⟨hcopy, ⟨hend, cutAccesses_inside hshort hcolon⟩, hi, hrest hcolon⟩
        next hcolon =>
          refine ⟨_, rfl, ?_⟩
          dsimp only
          rw [← List.append_assoc, List.forall_mem_append, List.length_nil, hinside]
          constructor
          · exact fun h => ⟨h.1.1, fun h => absurd h hcolon⟩
          · rintro ⟨hshort, -⟩
            exact ⟨⟨hshort, hi⟩, urlDecodeAccesses_inside t 0 0 h0 (by omega) (by omega)⟩

/-! ## The packet -/

theorem inside_shift {length n : Nat} {a : HttpAccess} (hn : n ≤ length) :
    (a.shift n).Inside length ↔ a.Inside (length - n) := by
  cases a with
  | read array i =>
      cases array with
      | buffer =>
          show n + i < length ↔ i < length - n
          omega
      | line => exact Iff.rfl
      | obuf => exact Iff.rfl
  | write array i c =>
      cases array with
      | buffer =>
          show n + i < length ↔ i < length - n
          omega
      | line => exact Iff.rfl
      | obuf => exact Iff.rfl

/-- What is read in `buffer + n` is read in `buffer`. -/
theorem forall_inside_shift {length n : Nat} (hn : n ≤ length) (as : List HttpAccess) :
    (∀ a ∈ as.map (HttpAccess.shift n), a.Inside length) ↔ ∀ a ∈ as, a.Inside (length - n) := by
  rw [List.forall_mem_map]
  exact forall₂_congr fun _ _ => inside_shift hn

/-- The tests between the request line and the headers are those of the model
without indices. -/
theorem httpDopacket_eq (env : HttpEnv) (stack : HttpStack) {packet : List UInt8}
    {cptr : HttpClient} (hwait : cptr.httpflags &&& hflagsParseWait = 0)
    (hline : (requestLine packet).length < httpBufSize) :
    httpDopacket env stack packet cptr =
      (requestTarget cptr.hostHeader (requestLine packet)).run env stack
        (packet.drop (requestLine packet).length) cptr := by
  rw [httpDopacket, if_pos hwait, requestTarget]
  dsimp only
  rw [if_neg (Nat.not_le_of_lt hline)]
  cases strtokens [0x20] (requestLine packet) with
  | nil => rfl
  | cons method tokens =>
      dsimp only
      cases lookupMethod method with
      | none => rfl
      | some func =>
          cases tokens with
          | nil => rfl
          | cons url tokens =>
              dsimp only
              split
              · rfl
              · split
                · rfl
                · cases urlPath url with
                  | none => rfl
                  | some url => rfl

/-- What has to fit in a packet: the request line, if it is one that starts with
one, and then, if that is accepted, the header lines. -/
def PacketFits (packet : List UInt8) (cptr : HttpClient) : Prop :=
  if cptr.httpflags &&& hflagsParseWait = 0 then
    RequestFits packet ∧
      ((∃ func url, requestTarget cptr.hostHeader (requestLine packet) = .accepted func url) →
        LinesFit (packet.drop (requestLine packet).length))
  else LinesFit packet

theorem headerAccesses_answers {fuel : Nat} {buffer : List UInt8}
    (hfuel : 2 * buffer.length < fuel) :
    ∃ accesses, headerAccesses fuel buffer = some accesses ∧
      ((∀ a ∈ accesses, a.Inside buffer.length) ↔ LinesFit buffer) :=
  headerLoop_answers buffer [] fuel rfl hfuel

/-- On every buffer `parse_client_header` ends, and stays inside its arrays exactly
if the lines it reads are short enough and ended; and on every packet so does
`http_dopacket`, exactly if the request line is and then the header lines are. -/
theorem packetAccesses_inside_iff (buffer packet : List UInt8) (cptr : HttpClient) :
    (∃ accesses, headerAccesses (2 * buffer.length + 1) buffer = some accesses ∧
      ((∀ a ∈ accesses, a.Inside buffer.length) ↔ LinesFit buffer)) ∧
    ∃ accesses, packetAccesses (2 * packet.length + 1) packet cptr = some accesses ∧
      ((∀ a ∈ accesses, a.Inside packet.length) ↔ PacketFits packet cptr) := by
  refine ⟨headerAccesses_answers (Nat.lt_succ_self _), ?_⟩
  have hlen : (requestLine packet).length ≤ packet.length :=
    (List.takeWhile_prefix _).length_le
  rw [packetAccesses, PacketFits]
  split
  · obtain ⟨as, has, hiff⟩ := @requestLoop_answers packet (2 * packet.length + 1) (by omega)
    rw [has, Option.bind_some]
    dsimp only
    cases requestTarget cptr.hostHeader (requestLine packet) with
    | nullPointer => exact ⟨as, rfl, by simp [hiff]⟩
    | refused status => exact ⟨as, rfl, by simp [hiff]⟩
    | accepted func url =>
        obtain ⟨bs, hbs, hiff'⟩ := @headerAccesses_answers (2 * packet.length + 1)
          (packet.drop (requestLine packet).length) (by rw [List.length_drop]; omega)
        rw [List.length_drop] at hiff'
        dsimp only
        rw [hbs]
        refine ⟨_, rfl, ?_⟩
        rw [List.forall_mem_append, forall_inside_shift hlen, hiff, hiff']
        simp
  · exact headerAccesses_answers (Nat.lt_succ_self _)

/-- A line of 1024 bytes. -/
def fullLine : List UInt8 := List.replicate 1024 0x61

/-- A packet of the byte `a` is read one byte too far, and a line of 1024 bytes is
written one byte too far. -/
theorem headerAccesses_outside :
    (∃ accesses, headerAccesses 3 [0x61] = some accesses ∧ .read .buffer 1 ∈ accesses ∧
      ¬(HttpAccess.read .buffer 1).Inside 1) ∧
    ∃ accesses, headerAccesses 2051 (fullLine ++ [0x0a]) = some accesses ∧
      .write .line 1024 0 ∈ accesses ∧ ¬(HttpAccess.write .line 1024 0).Inside 1025 := by
  refine ⟨⟨_, rfl, by decide, by decide⟩, ?_⟩
  have hlen : fullLine.length = 1024 := List.length_replicate
  have htext : ∀ c ∈ fullLine, endsLine c = false := by
    intro c hc
    rw [List.eq_of_mem_replicate hc]
    rfl
  have hne : fullLine ≠ [] := by
    intro h
    rw [h] at hlen
    cases hlen
  have hcolon : 0x3a ∉ fullLine := by
    intro h
    have := List.eq_of_mem_replicate h
    revert this
    decide
  have hpos : (0 : Int) < (fullLine ++ [0x0a]).length := by
    rw [List.length_append, hlen]
    decide
  have hget : (fullLine ++ [0x0a]).getD 1024 0 = 0x0a := by
    rw [← hlen]
    exact getD_append_cons ..
  have h := @headerLoop_text (fullLine ++ [0x0a]) (1026 + 1) _ hpos fullLine [] [] [0x0a] rfl htext
  rw [hlen, List.length_nil, Nat.zero_add, List.nil_append,
    headerLoop_end hpos hne (by rw [hget]; rfl), if_neg hcolon, hlen] at h
  exact ⟨_, h, by simp, by decide⟩

end TrIrcd
