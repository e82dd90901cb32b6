import TrIrcd.Proofs.HttpSplit

/-!
# Requests, in one packet and in several

A request is its line, header lines with a colon, an empty line and a body. The
first packet is taken if it holds the request line up to the dot of the version
(`take_accepted`); a shorter one is answered with an error, and the client is
dead (`take_refused`). What is behind it goes on as `parse_run_iff` says.
-/

namespace TrIrcd

open TrIrcd.Lib

def HttpMethod.word : HttpMethod → List UInt8
  | .get => ascii ['G', 'E', 'T']
  | .post => ascii ['P', 'O', 'S', 'T']
  | .mna => ascii ['H', 'E', 'A', 'D']

def crlf : List UInt8 := [0x0d, 0x0a]

/-- What a version starts with. -/
def versionStart : List UInt8 := ascii ['H', 'T', 'T', 'P', '/', '1', '.']

structure HttpRequest where
  method : HttpMethod
  target : List UInt8
  version : List UInt8
  headers : List (List UInt8)
  body : List UInt8

namespace HttpRequest

/-- The request line. -/
def line (r : HttpRequest) : List UInt8 :=
  r.method.word ++ 0x20 :: (r.target ++ 0x20 :: r.version)

/-- What is behind the request line. -/
def rest (r : HttpRequest) : List UInt8 :=
  crlf ++ (r.headers.flatMap (· ++ crlf) ++ (crlf ++ r.body))

def bytes (r : HttpRequest) : List UInt8 := r.line ++ r.rest

structure WellFormed (r : HttpRequest) : Prop where
  method : r.method ≠ .mna
  target : ∀ c ∈ r.target, c ≠ 0x20 ∧ endsLine c = false
  path : r.target.headD 0 = 0x2f ∨
    (strstr (ascii ['h', 't', 't', 'p', ':', '/', '/']) r.target).isSome
  version : ∃ minor, r.version = versionStart ++ minor ∧ minor ≠ [] ∧ ∀ c ∈ minor, isDigit c
  headers : ∀ line ∈ r.headers, 0x3a ∈ line ∧ ∀ c ∈ line, endsLine c = false
  body : ∀ c ∈ r.body, endsLine c = false
  get : r.method = .get → r.body = []
  contentLength : r.method = .post → ∃ line ∈ r.headers, ∃ f ∈ headerField line,
    lookupHeader f.1 = some .contentLength ∧ strtol f.2 = r.body.length
  short : ∀ line ∈ headerLines r.bytes, line.length < httpBufSize

/-- What its method is called with when it is one packet. -/
def data (r : HttpRequest) : Option (List UInt8) :=
  if r.body = [] ∨ 0x3a ∈ r.body then none else some (decodeInto [] r.body)

/-- Where the version has its dot. -/
def versionDot (r : HttpRequest) : Nat :=
  r.method.word.length + 1 + r.target.length + 1 + versionStart.length

variable {r : HttpRequest}

theorem WellFormed.target_ne_nil (h : r.WellFormed) : r.target ≠ [] := by
  intro hnil
  have hpath := h.path
  rw [hnil] at hpath
  revert hpath
  decide

theorem word_text (m : HttpMethod) : ∀ c ∈ m.word, c ≠ 0x20 ∧ endsLine c = false := by
  cases m <;> exact forall_mem_of_all (by decide)

theorem WellFormed.version_text (h : r.WellFormed) :
    ∀ c ∈ r.version, c ≠ 0x20 ∧ endsLine c = false := by
  have hstart : ∀ c ∈ versionStart, c ≠ 0x20 ∧ endsLine c = false :=
    forall_mem_of_all (by decide)
  have hdigit : ∀ c : UInt8, isDigit c → c ≠ 0x20 ∧ endsLine c = false := by
    intro c hc
    simp only [isDigit, endsLine] at hc ⊢
    grind
  obtain ⟨minor, hv, -, hminor⟩ := h.version
  rw [hv]
  intro c hc
  exact (List.mem_append.mp hc).elim (hstart c) fun hc => hdigit c (hminor c hc)

theorem WellFormed.line_text (h : r.WellFormed) : ∀ c ∈ r.line, endsLine c = false := by
  intro c hc
  simp only [line, List.mem_append, List.mem_cons] at hc
  rcases hc with hc | rfl | hc | rfl | hc
  · exact (word_text _ c hc).2
  · rfl
  · exact (h.target c hc).2
  · rfl
  · exact (h.version_text c hc).2

/-! ## Lines -/

theorem headerLines_crlf (s : List UInt8) : headerLines (crlf ++ s) = headerLines s := by
  have hcr := pieces_append_cons [] (0x0a :: s) (show endsLine 0x0d = true from rfl)
  have hlf := pieces_append_cons [] s (show endsLine 0x0a = true from rfl)
  exact hcr.trans hlf

/-- A line of text, and what follows it. -/
theorem headerLines_line {t : List UInt8} (ht : ∀ c ∈ t, endsLine c = false) (hne : t ≠ [])
    (s : List UInt8) : headerLines (t ++ (crlf ++ s)) = t :: headerLines s := by
  rw [headerLines, show crlf ++ s = 0x0d :: (0x0a :: s) from rfl, pieces_append_cons t _ rfl,
    pieces_of_text ht, close_of_ne_nil [] hne]
  exact congrArg (t :: ·) (pieces_append_cons [] s rfl)

theorem headerLines_flatMap {lines : List (List UInt8)}
    (h : ∀ line ∈ lines, 0x3a ∈ line ∧ ∀ c ∈ line, endsLine c = false) (s : List UInt8) :
    headerLines (lines.flatMap (· ++ crlf) ++ s) = lines ++ headerLines s := by
  induction lines with
  | nil => rfl
  | cons line lines ih =>
      obtain ⟨⟨hcolon, htext⟩, h⟩ := List.forall_mem_cons.mp h
      rw [List.flatMap_cons, List.append_assoc, List.append_assoc,
        headerLines_line htext (List.ne_nil_of_mem hcolon), ih h, List.cons_append]

theorem WellFormed.headerLines_rest (h : r.WellFormed) :
    headerLines r.rest = r.headers ++ close [] r.body := by
  rw [rest, headerLines_crlf, headerLines_flatMap h.headers, headerLines_crlf, headerLines,
    pieces_of_text h.body]

/-- One packet calls the method with the body, if it has no colon. -/
theorem WellFormed.dataOf_rest (h : r.WellFormed) : dataOf (headerLines r.rest) = r.data := by
  have hheaders : r.headers.find? (fun line => 0x3a ∉ line) = none := by
    rw [List.find?_eq_none]
    exact fun line hline => by simpa using (h.headers line hline).1
  rw [dataOf, h.headerLines_rest, List.find?_append, hheaders, Option.none_or, data]
  by_cases hnil : r.body = []
  · rw [hnil, if_pos (.inl rfl)]
    rfl
  · rw [close_of_ne_nil [] hnil]
    by_cases hcolon : 0x3a ∈ r.body <;> simp [hnil, hcolon]

/-! ## The first packet -/

theorem WellFormed.requestLine_take (h : r.WellFormed) (k : Nat) :
    requestLine (r.bytes.take k) = r.line.take k := by
  have htext : ∀ c ∈ r.line.take k, (!(c = 0x0d || c = 0x0a)) = true := by
    intro c hc
    have hline := h.line_text c (List.mem_of_mem_take hc)
    simp only [endsLine, Bool.or_eq_false_iff] at hline
    simp [hline]
  rw [requestLine, bytes, List.take_append, List.takeWhile_append_of_pos htext]
  have hrest : (r.rest.take (k - r.line.length)).takeWhile (fun c => !(c = 0x0d || c = 0x0a)) =
      [] := by
    cases k - r.line.length with
    | zero => rfl
    | succ i => rfl
  rw [hrest, List.append_nil]

theorem WellFormed.bytes_take_drop (h : r.WellFormed) (k : Nat) :
    (r.bytes.take k).drop (requestLine (r.bytes.take k)).length =
      r.rest.take (k - r.line.length) := by
  rw [h.requestLine_take, bytes, List.take_append, List.drop_left]

/-- The words of the request line that the packet has. -/
theorem WellFormed.strtokens_take (h : r.WellFormed) (k : Nat) :
    strtokens [0x20] (r.line.take k) =
      if k ≤ r.method.word.length then close [] (r.method.word.take k)
      else r.method.word ::
        if k - r.method.word.length - 1 ≤ r.target.length then
          close [] (r.target.take (k - r.method.word.length - 1))
        else r.target ::
          close [] (r.version.take (k - r.method.word.length - 1 - r.target.length - 1)) := by
  have hspace : ∀ {t : List UInt8}, (∀ c ∈ t, c ≠ 0x20 ∧ endsLine c = false) →
      ∀ c ∈ t, decide (c ∈ [(0x20 : UInt8)]) = false := by
    intro t ht c hc
    simpa using (ht c hc).1
  have hzero : 0 ∉ r.line.take k := by
    intro hc
    exact absurd (h.line_text 0 (List.mem_of_mem_take hc)) (by decide)
  have hword : r.method.word ≠ [] := by
    cases r.method <;> decide
  rw [strtokens, cstr_of_notMem hzero, line,
    pieces_take_append_cons _ (hspace (word_text r.method)) (by decide)]
  congr 1
  rw [close_of_ne_nil [] hword, List.nil_append, List.singleton_append,
    pieces_take_append_cons _ (hspace h.target) (by decide)]
  congr 2
  rw [close_of_ne_nil [] h.target_ne_nil, List.nil_append, List.singleton_append,
    pieces_of_text]
  exact fun c hc => hspace h.version_text c (List.mem_of_mem_take hc)

theorem checkVersionString_start (minor : List UInt8) :
    checkVersionString (some (versionStart ++ minor)) = 1 := by
  have hstart : ircStrncmp (versionStart ++ minor) (ascii ['H', 'T', 'T', 'P', '/']) 5 = 0 := rfl
  have hdrop : (versionStart ++ minor).drop 5 = 0x31 :: 0x2e :: minor := rfl
  have hatoi : atoi (0x31 :: 0x2e :: minor) = 1 := rfl
  rw [checkVersionString, if_pos hstart, hdrop]
  simp only [List.mem_cons, true_or, or_true, if_true, hatoi]

/-- The version is accepted from its dot on. -/
theorem WellFormed.version_take (h : r.WellFormed) (i : Nat) :
    checkVersionString (close [] (r.version.take i)).head? = 1 ↔ versionStart.length ≤ i := by
  obtain ⟨minor, hv, -⟩ := h.version
  rw [hv]
  by_cases hi : versionStart.length ≤ i
  · rw [List.take_append, List.take_of_length_le hi,
      close_of_ne_nil [] (List.append_ne_nil_of_left_ne_nil (by decide) _)]
    exact iff_of_true (checkVersionString_start _) hi
  · rw [List.take_append_of_le_length (by omega)]
    refine iff_of_false ?_ hi
    have hshort : ∀ i < 7, checkVersionString (close [] (versionStart.take i)).head? ≠ 1 := by
      decide
    exact hshort i (by rw [show (7 : Nat) = versionStart.length from rfl]; omega)

theorem lookupMethod_word {m : HttpMethod} : lookupMethod m.word = some m := by
  cases m <;> decide

theorem WellFormed.line_short (h : r.WellFormed) (k : Nat) :
    ¬httpBufSize ≤ (r.line.take k).length := by
  have hword : r.line ≠ [] := by simp [line]
  have hmem : r.line ∈ headerLines r.bytes := by
    rw [bytes, rest, headerLines_line h.line_text hword]
    exact List.mem_cons_self ..
  have hline := h.short _ hmem
  rw [List.length_take]
  omega

section Packet

variable {env : HttpEnv} {stack : HttpStack} {c : HttpClient} {k : Nat}

/-- A packet that ends before the dot, or a URL of another host. -/
theorem WellFormed.take_refused (h : r.WellFormed) (hk : 0 < k)
    (hwait : c.httpflags &&& hflagsParseWait = 0)
    (hbad : k < r.versionDot ∨ urlOfOther c.hostHeader r.target = true) :
    ∃ status, httpDopacket env stack (r.bytes.take k) c = .ok (c.refuse .httpDopacket status) := by
  rw [httpDopacket, if_pos hwait]
  simp only [h.requestLine_take, h.line_short, if_false, h.strtokens_take]
  by_cases hword : k ≤ r.method.word.length
  · have hne : r.method.word.take k ≠ [] := by
      intro hnil
      have hlen := congrArg List.length hnil
      rw [List.length_take, List.length_nil] at hlen
      omega
    rw [if_pos hword, close_of_ne_nil [] hne]
    simp only [List.nil_append]
    cases lookupMethod (r.method.word.take k) with
    | none => exact ⟨501, rfl⟩
    | some func => exact ⟨400, rfl⟩
  rw [if_neg hword]
  simp only [lookupMethod_word]
  by_cases htarget : k - r.method.word.length - 1 ≤ r.target.length
  · rw [if_pos htarget]
    by_cases hne : r.target.take (k - r.method.word.length - 1) = []
    · rw [hne, close_nil]
      exact ⟨400, rfl⟩
    · rw [close_of_ne_nil [] hne]
      simp only [List.nil_append, List.head?_nil, checkVersionString]
      split
      · exact ⟨400, rfl⟩
      · exact ⟨505, rfl⟩
  · rw [if_neg htarget]
    simp only
    split
    · exact ⟨400, rfl⟩
    next hother =>
      have hdot : checkVersionString (close []
          (r.version.take (k - r.method.word.length - 1 - r.target.length - 1))).head? ≠ 1 := by
        rw [Ne, h.version_take]
        have hlt := hbad.resolve_right hother
        rw [versionDot] at hlt
        omega
      rw [if_pos hdot]
      exact ⟨505, rfl⟩

/-- A packet with the dot goes to the method, if the URL has a path. -/
theorem WellFormed.take_accepted (h : r.WellFormed) (hwait : c.httpflags &&& hflagsParseWait = 0)
    (hdot : r.versionDot ≤ k) (hother : urlOfOther c.hostHeader r.target = false) :
    httpDopacket env stack (r.bytes.take k) c =
      match urlPath r.target with
      | none => .error .nullPointer
      | some url =>
          parseClientHeader env stack (r.rest.take (k - r.line.length)) url r.method
            { c with hurl := url } := by
  rw [versionDot] at hdot
  have hversion : checkVersionString (close []
      (r.version.take (k - r.method.word.length - 1 - r.target.length - 1))).head? = 1 := by
    rw [h.version_take]
    omega
  have hdrop := h.bytes_take_drop k
  rw [h.requestLine_take] at hdrop
  rw [httpDopacket, if_pos hwait]
  simp only [h.requestLine_take, h.line_short, if_false, h.strtokens_take]
  rw [if_neg (by omega), if_neg (by omega)]
  cases hpath : urlPath r.target with
  | none =>
    simp only [lookupMethod_word, hother, Bool.false_eq_true, if_false, hversion, ne_eq,
      not_true_eq_false, hpath]
  | some url =>
    simp only [lookupMethod_word, hother, Bool.false_eq_true, if_false, hversion, ne_eq,
      not_true_eq_false, hdrop, hpath]

end Packet

/-! ## All packets -/

theorem WellFormed.piece_short (h : r.WellFormed) {xs ys zs : List UInt8}
    (hparts : r.bytes = xs ++ (ys ++ zs)) :
    ∀ line ∈ headerLines ys, line.length < httpBufSize := by
  intro line hline
  obtain ⟨v, hv, hlen⟩ := @exists_longer_piece _ _ xs ys zs line hline
  rw [← hparts] at hv
  exact Nat.lt_of_le_of_lt hlen (h.short v hv)

theorem WellFormed.urlPath_slash (h : r.WellFormed) {path : List UInt8}
    (hpath : urlPath r.target = some path) : path.headD 0 = 0x2f := by
  rw [urlPath] at hpath
  split at hpath
  · rw [strchr] at hpath
    split at hpath
    next hmem =>
      cases hpath
      have hhead := List.head?_dropWhile_not (fun c => decide (c ≠ 0x2f)) (r.target.drop 7)
      cases hrest : (r.target.drop 7).dropWhile fun c => decide (c ≠ 0x2f) with
      | nil => exact absurd (List.dropWhile_eq_nil_iff.mp hrest 0x2f hmem) (by decide)
      | cons c s =>
          rw [hrest] at hhead
          simpa using hhead
    · cases hpath
  next hno =>
    cases hpath
    exact h.path.resolve_right hno

end HttpRequest

/-- A client that was just accepted. -/
def newHttpClient (hostHeader : Option (List UInt8)) : HttpClient :=
  finalizeHttpClient (makeHttpClient hostHeader)

/-- What the method is called with in the end is what it is called with when
the request is one packet, and no earlier call has data. -/
def AsOnePacket (one : HttpClient) (result : Except HttpFault HttpClient) : Prop :=
  ∃ call c, one.calls = [call] ∧ result = .ok c ∧ EndsWith [] call c.calls

/-- Packets with their lines, the first one without its request line. -/
def packetLines : List HttpPacket → List LinedPacket
  | [] => []
  | p :: ps =>
      (p, headerLines (p.2.2.drop (requestLine p.2.2).length)) ::
        ps.map fun q => (q, headerLines q.2.2)

section Split

variable {r : HttpRequest} {hostHeader : Option (List UInt8)}

theorem newHttpClient_ready (hostHeader : Option (List UInt8)) (path packet : List UInt8) :
    Ready hostHeader path []
      { (newHttpClient hostHeader).does (.request packet) with hurl := path } := by
  have hflags : (newHttpClient hostHeader).flags &&& flagsDeadsocket = 0 ∧
      (newHttpClient hostHeader).flags &&& hflagsEmptyHost = 0 := by
    simp only [newHttpClient, finalizeHttpClient, makeHttpClient]
    decide
  have hclear : (newHttpClient hostHeader).httpflags &&& hflagsExpectationFailed = 0 ∧
      (newHttpClient hostHeader).httpflags &&& hflagsAuthenticated = 0 := by
    simp only [newHttpClient, finalizeHttpClient, makeHttpClient]
    decide
  refine ⟨not_not.mpr hflags.1, hflags.2, rfl, rfl, rfl,
    decide_eq_false (not_not.mpr hclear.1), ?_, iff_of_false ?_ ?_⟩
  · simp [HaveHeader, newHttpClient, finalizeHttpClient, makeHttpClient, HttpClient.does]
  · exact Bool.eq_false_iff.mp (decide_eq_false (not_not.mpr hclear.2))
  · rintro ⟨p, hp, -⟩
    cases hp

theorem readStep_new {p : HttpPacket} (hp : p.2.2 ≠ []) :
    readStep (newHttpClient hostHeader) p =
      httpDopacket p.1 p.2.1 p.2.2 ((newHttpClient hostHeader).does (.request p.2.2)) := by
  have halive : ¬(newHttpClient hostHeader).flags &&& flagsDeadsocket ≠ 0 :=
    (newHttpClient_ready hostHeader [] []).alive
  rw [readStep, readHttpPacket, if_neg halive, if_neg hp]

theorem newHttpClient_wait (packet : List UInt8) :
    ((newHttpClient hostHeader).does (.request packet)).httpflags &&& hflagsParseWait = 0 := by
  show (newHttpClient hostHeader).httpflags &&& hflagsParseWait = 0
  simp only [newHttpClient, finalizeHttpClient, makeHttpClient]
  decide

/-- A first packet that is refused is the end. -/
theorem run_refused {p : HttpPacket} {ps : List HttpPacket} {result : HttpClient}
    (hp : p.2.2 ≠ []) {status : Nat}
    (hrefused : httpDopacket p.1 p.2.1 p.2.2 ((newHttpClient hostHeader).does (.request p.2.2)) =
      .ok (((newHttpClient hostHeader).does (.request p.2.2)).refuse .httpDopacket status))
    (hok : run readStep (newHttpClient hostHeader) (p :: ps) = .ok result) : result.calls = [] := by
  obtain ⟨c', hrun, hcalls⟩ := run_dead ps (exitHttpd_dead
    (((newHttpClient hostHeader).does (.request p.2.2)).answer .httpDopacket status))
  rw [run_cons, readStep_new hp, hrefused] at hok
  cases hok.symm.trans hrun
  exact hcalls

section First

variable {p : HttpPacket} (hr : r.WellFormed) (hp : p.2.2 ≠ [])
  (hfirst : p.2.2 = r.bytes.take p.2.2.length)

include hr hfirst

/-- The lines of the first packet are those behind the request line. -/
theorem HttpRequest.WellFormed.first_lines (ps : List HttpPacket) :
    packetLines (p :: ps) = (p, headerLines (r.rest.take (p.2.2.length - r.line.length))) ::
      ps.map fun q => (q, headerLines q.2.2) := by
  rw [packetLines, ← hr.bytes_take_drop, ← hfirst]

include hp

theorem HttpRequest.WellFormed.first_refused {one : HttpClient} {ps : List HttpPacket}
    (hbad : p.2.2.length < r.versionDot ∨ urlOfOther hostHeader r.target = true) :
    ¬AsOnePacket one (run readStep (newHttpClient hostHeader) (p :: ps)) := by
  rintro ⟨call, result, -, hok, waits, heq, -⟩
  obtain ⟨status, href⟩ := @HttpRequest.WellFormed.take_refused r p.1 p.2.1
    ((newHttpClient hostHeader).does (.request p.2.2)) _ hr (List.length_pos_iff.mpr hp)
    (newHttpClient_wait p.2.2) hbad
  rw [← hfirst] at href
  rw [run_refused hp href hok] at heq
  exact absurd (congrArg List.length heq) (by simp)

theorem HttpRequest.WellFormed.first_step (hdot : r.versionDot ≤ p.2.2.length)
    (hother : urlOfOther hostHeader r.target = false) {path : List UInt8}
    (hpath : urlPath r.target = some path) :
    readStep (newHttpClient hostHeader) p =
      parseClientHeader p.1 p.2.1 (r.rest.take (p.2.2.length - r.line.length)) path r.method
        { (newHttpClient hostHeader).does (.request p.2.2) with hurl := path } := by
  have haccepted := @HttpRequest.WellFormed.take_accepted r p.1 p.2.1
    ((newHttpClient hostHeader).does (.request p.2.2)) _ hr (newHttpClient_wait p.2.2) hdot hother
  rw [← hfirst, hpath] at haccepted
  rw [readStep_new hp, haccepted]

/-- A packet of a URL without a path is a null pointer. -/
theorem HttpRequest.WellFormed.first_path {c : HttpClient} (hdot : r.versionDot ≤ p.2.2.length)
    (hother : urlOfOther hostHeader r.target = false)
    (hok : readStep (newHttpClient hostHeader) p = .ok c) :
    ∃ path, urlPath r.target = some path := by
  have haccepted := @HttpRequest.WellFormed.take_accepted r p.1 p.2.1
    ((newHttpClient hostHeader).does (.request p.2.2)) _ hr (newHttpClient_wait p.2.2) hdot hother
  rw [← hfirst, ← readStep_new hp, hok] at haccepted
  cases hpath : urlPath r.target with
  | none =>
      rw [hpath] at haccepted
      cases haccepted
  | some path => exact ⟨path, rfl⟩

end First

theorem HttpRequest.bytes_ne_nil (r : HttpRequest) : r.bytes ≠ [] := by
  simp [HttpRequest.bytes, HttpRequest.line]

/-- The lines of every packet are short, as those of the request are. -/
theorem HttpRequest.WellFormed.packet_short (hr : r.WellFormed) {ps : List HttpPacket}
    (hps : ps.flatMap (fun p => p.2.2) = r.bytes) :
    ∀ q ∈ ps, ∀ line ∈ headerLines q.2.2, line.length < httpBufSize := by
  intro q hq
  obtain ⟨before, after, hsplit⟩ := List.append_of_mem hq
  have hwhole : r.bytes = (before.flatMap fun p => p.2.2) ++
      (q.2.2 ++ after.flatMap fun p => p.2.2) := by
    rw [← hps, hsplit]
    simp
  exact hr.piece_short hwhole

/-- In one packet a request is one call, with the body. -/
theorem HttpRequest.WellFormed.one_call (hr : r.WellFormed) {env : HttpEnv} {stack : HttpStack}
    {one : HttpClient} {path : List UInt8}
    (hone : readStep (newHttpClient hostHeader) (env, stack, r.bytes) = .ok one)
    (hdot : r.versionDot ≤ r.bytes.length) (hother : urlOfOther hostHeader r.target = false)
    (hpath : urlPath r.target = some path) : one.calls = [(r.method, path, r.data)] := by
  have hrest : r.rest.take (r.bytes.length - r.line.length) = r.rest := by
    rw [List.take_of_length_le]
    rw [HttpRequest.bytes, List.length_append]
    omega
  have hparse := (hr.first_step (p := (env, stack, r.bytes)) r.bytes_ne_nil List.take_length.symm
    hdot hother hpath).symm.trans hone
  rw [hrest] at hparse
  have hcalls := parseClientHeader_one_call (newHttpClient_ready hostHeader path r.bytes).seen
    (hr.piece_short (show r.bytes = r.line ++ (r.rest ++ []) by rw [List.append_nil]; rfl)) hparse
  rw [hcalls, hr.dataOf_rest]
  rfl

/-- In several packets a request is what it is in one exactly if its first
packet holds the request line up to the dot of the version, and the first line
without a colon in the packets is the body. -/
theorem HttpRequest.split_iff (hr : r.WellFormed) {env : HttpEnv} {stack : HttpStack}
    {one : HttpClient}
    (hone : readHttpPacket env stack r.bytes (newHttpClient hostHeader) = .ok one)
    {ps : List HttpPacket} (hps : ps.flatMap (fun p => p.2.2) = r.bytes)
    (hsize : ∀ p ∈ ps, p.2.2 ≠ [] ∧ p.2.2.length ≤ httpReadBufSize) :
    AsOnePacket one (run readStep (newHttpClient hostHeader) ps) ↔
      urlOfOther hostHeader r.target = false ∧
        (∀ p ∈ ps.head?, r.versionDot ≤ p.2.2.length) ∧
        Delivers hostHeader r.method ((urlPath r.target).getD []) r.data [] (packetLines ps) := by
  obtain ⟨p, rest, rfl⟩ : ∃ p rest, ps = p :: rest := by
    cases ps with
    | nil => exact absurd hps.symm r.bytes_ne_nil
    | cons p rest => exact ⟨p, rest, rfl⟩
  have hshort := hr.packet_short hps
  obtain ⟨⟨hp, -⟩, hsize⟩ := List.forall_mem_cons.mp hsize
  obtain ⟨hpshort, hrestshort⟩ := List.forall_mem_cons.mp hshort
  rw [List.flatMap_cons] at hps
  have hfirst : p.2.2 = r.bytes.take p.2.2.length := by rw [← hps, List.take_left]
  by_cases hother : urlOfOther hostHeader r.target = true
  · exact iff_of_false (hr.first_refused hp hfirst (.inr hother))
      fun h => by rw [hother] at h; cases h.1
  rcases Nat.lt_or_ge p.2.2.length r.versionDot with hlt | hdot
  · exact iff_of_false (hr.first_refused hp hfirst (.inl hlt))
      fun h => absurd (h.2.1 p rfl) (Nat.not_le_of_lt hlt)
  rw [Bool.not_eq_true] at hother
  -- the request in one packet is one call
  have hlong : r.versionDot ≤ r.bytes.length := by
    rw [← hps, List.length_append]
    omega
  obtain ⟨path, hpath⟩ := hr.first_path (p := (env, stack, r.bytes)) r.bytes_ne_nil
    List.take_length.symm hlong hother hone
  have hcalls := hr.one_call hone hlong hother hpath
  -- and in several it is what their lines say
  have hrun := @parse_run_iff hostHeader path r.method r.data _ hr.method (hr.urlPath_slash hpath)
    rest (fun q hq => ⟨(hsize q hq).1, hrestshort q hq⟩)
    (p, headerLines (r.rest.take (p.2.2.length - r.line.length))) _ []
    (newHttpClient_ready hostHeader path p.2.2) rfl fun line hline => by
      rw [← hr.bytes_take_drop, ← hfirst] at hline
      exact hpshort line (headerLines_drop hline)
  rw [hr.first_lines hfirst rest, run_cons, hr.first_step hp hfirst hdot hother hpath, hpath,
    Option.getD_some, ← hrun]
  constructor
  · rintro ⟨call, result, hcall, hok, hwith⟩
    rw [hcalls] at hcall
    cases hcall
    exact ⟨hother, fun q hq => by cases hq; exact hdot, result, hok, hwith⟩
  · rintro ⟨-, -, result, hok, hwith⟩
    exact ⟨_, result, hcalls, hok, hwith⟩

end Split

/-- A form of one byte, and its length. -/
def smallPost : HttpRequest where
  method := .post
  target := ascii ['/']
  version := ascii ['H', 'T', 'T', 'P', '/', '1', '.', '0']
  headers := [ascii
    ['C', 'o', 'n', 't', 'e', 'n', 't', '-', 'L', 'e', 'n', 'g', 't', 'h', ':', ' ', '1']]
  body := ascii ['x']

theorem smallPost_wellFormed : smallPost.WellFormed where
  method := nofun
  target := forall_mem_of_all (by decide)
  path := by decide
  version := ⟨[0x30], rfl, nofun, forall_mem_of_all (by decide)⟩
  headers := by
    refine List.forall_mem_singleton.mpr ⟨by decide, ?_⟩
    exact forall_mem_of_all (by decide)
  body := forall_mem_of_all (by decide)
  get := nofun
  contentLength _ := ⟨_, List.mem_cons_self .., _, rfl, rfl, by decide⟩
  short := forall_mem_of_all (by decide)

/-- Where its packets are cut. -/
def smallPackets (k : Nat) : List HttpPacket :=
  [(emptyServer, zeroStack, smallPost.bytes.take k),
    (emptyServer, zeroStack, smallPost.bytes.drop k)]

/-- Cut before the body, the method waits for it. -/
theorem smallPost_split :
    ∃ one, readHttpPacket emptyServer zeroStack smallPost.bytes (newHttpClient none) = .ok one ∧
      AsOnePacket one (run readStep (newHttpClient none) (smallPackets 38)) := by
  have hone : ∃ one, readHttpPacket emptyServer zeroStack smallPost.bytes (newHttpClient none) =
      .ok one := ⟨_, rfl⟩
  obtain ⟨one, hone⟩ := hone
  have hwaits : ¬Ends .post smallPost.headers := by
    rintro (hget | ⟨line, hline, f, hf, hexpect⟩ | hdata)
    · cases hget
    · obtain rfl := List.mem_singleton.mp (List.takeWhile_subset _ hline)
      cases hf
      cases hexpect
    · exact hdata rfl
  refine ⟨one, hone,
    (HttpRequest.split_iff smallPost_wellFormed hone rfl (forall_mem_of_all (by decide))).mpr
    ⟨by decide, by decide, [((emptyServer, zeroStack, smallPost.bytes.take 38), smallPost.headers)],
      ((emptyServer, zeroStack, smallPost.bytes.drop 38), [smallPost.body]), [], rfl,
      ?_, rfl, .inl rfl, ?_⟩⟩
  · intro q hq
    obtain rfl := List.mem_singleton.mp hq
    exact ⟨rfl, hwaits⟩
  · intro data _ hurl
    exact hurl.elim (fun hurl => absurd hurl.2 (by decide))
      fun hurl => absurd hurl.1.2.2 (by decide)

/-- Cut in the name of the header, what there is of the name is the data. -/
theorem smallPost_cut :
    ¬∀ (r : HttpRequest) (hostHeader : Option (List UInt8)) (env : HttpEnv) (stack : HttpStack)
      (one : HttpClient) (ps : List HttpPacket), r.WellFormed →
      readHttpPacket env stack r.bytes (newHttpClient hostHeader) = .ok one →
      ps.flatMap (fun p => p.2.2) = r.bytes →
      (∀ p ∈ ps, p.2.2 ≠ [] ∧ p.2.2.length ≤ httpReadBufSize) →
      AsOnePacket one (run readStep (newHttpClient hostHeader) ps) := by
  intro h
  obtain ⟨one, hone, hcalls⟩ : ∃ one, readHttpPacket emptyServer zeroStack smallPost.bytes
      (newHttpClient none) = .ok one ∧ one.calls = [(.post, ascii ['/'], some (ascii ['x']))] :=
    ⟨_, rfl, rfl⟩
  obtain ⟨result, hrun, hcut⟩ : ∃ c, run readStep (newHttpClient none) (smallPackets 25) = .ok c ∧
      c.calls = [(.post, ascii ['/'], some (ascii ['C', 'o', 'n', 't', 'e', 'n', 't', '-']))] :=
    ⟨_, rfl, rfl⟩
  obtain ⟨call, c, hcall, hok, waits, hwaits, -⟩ := h smallPost none emptyServer zeroStack one
    (smallPackets 25) smallPost_wellFormed hone rfl (forall_mem_of_all (by decide))
  rw [hcalls] at hcall
  cases hcall
  rw [hrun] at hok
  cases hok
  rw [hcut] at hwaits
  exact absurd (congrArg List.getLast? hwaits) (by simp; decide)

end TrIrcd
