import TrIrcd.Src.Httpd

/-!
# The header lines of a packet

`parseLoop` reads a packet byte by byte. `parseLoop_eq` says that this is a
loop over the lines of the packet (`lineLoop`): they are its pieces between
`\r`, `\n` and NUL, the last one with or without a line end. A fact about what
headers do is then an induction over lines, and what the header functions can
do to a client is said once, by `runHeader_frame`.
-/

namespace TrIrcd

open TrIrcd.Lib

/-- The lines of a packet. -/
def headerLines (buffer : List UInt8) : List (List UInt8) := pieces endsLine buffer

/-- The loop over lines. -/
def lineLoop (env : HttpEnv) (stack : HttpStack) : List (List UInt8) → Nat → HttpClient →
    Except HttpFault (HttpClient × Option (List UInt8))
  | [], _, cptr => .ok (cptr, none)
  | line :: lines, n, cptr =>
      if httpBufSize ≤ line.length then .error .overflow
      else
        match headerField line with
        | none => .ok (cptr, some (decodeInto [] line))
        | some (name, value) =>
            lineLoop env stack lines (n + 1) (runHeader env stack n line name value cptr)

section Loop

variable {env : HttpEnv} {stack : HttpStack} {cptr cptr' : HttpClient}
  {line name value : List UInt8}
  {n : Nat}

theorem parseLoop_eq (env : HttpEnv) (stack : HttpStack) (buffer : List UInt8) :
    ∀ {n : Nat} {line : List UInt8} {cptr : HttpClient}, (∀ c ∈ line, endsLine c = false) →
      line.length < httpBufSize → parseLoop env stack buffer n line cptr =
        lineLoop env stack (headerLines (line ++ buffer)) n cptr := by
  induction buffer with
  | nil =>
      intro n line cptr hl hlen
      rw [parseLoop, headerLines, List.append_nil, pieces_of_text hl]
      by_cases hne : line = []
      · rw [if_pos hne, hne, close_nil, lineLoop]
      · rw [if_neg hne, close_of_ne_nil [] hne, List.nil_append, lineLoop,
          if_neg (Nat.not_le_of_lt hlen)]
        rfl
  | cons c buffer ih =>
      intro n line cptr hl hlen
      rw [parseLoop, headerLines]
      cases hc : endsLine c with
      | true =>
          rw [if_pos rfl, pieces_append_cons line buffer hc, pieces_of_text hl]
          by_cases hne : line = []
          · rw [if_pos hne, hne, close_nil, List.nil_append]
            exact ih (fun _ h => absurd h List.not_mem_nil) (by decide)
          · rw [if_neg hne, close_of_ne_nil [] hne, List.nil_append, List.singleton_append,
              lineLoop, if_neg (Nat.not_le_of_lt hlen)]
            cases headerField line with
            | none => rfl
            | some f => exact ih (fun _ h => absurd h List.not_mem_nil) (by decide)
      | false =>
          have hlc : ∀ d ∈ line ++ [c], endsLine d = false := by
            intro d hd
            rcases List.mem_append.mp hd with hd | hd
            · exact hl d hd
            · rw [List.mem_singleton.mp hd]
              exact hc
          rw [if_neg Bool.false_ne_true]
          by_cases hlt : line.length + 1 < httpBufSize
          · rw [if_pos hlt, ih hlc (by rw [List.length_append]; exact hlt), List.append_assoc,
              List.singleton_append]
            rfl
          · obtain ⟨w, ws, hw⟩ := pieces_text_append buffer hlc
              (List.append_ne_nil_of_right_ne_nil line (List.cons_ne_nil c []))
            rw [List.append_assoc, List.singleton_append] at hw
            rw [if_neg hlt, hw, lineLoop, if_pos]
            rw [List.length_append, List.length_append, List.length_singleton]
            omega

theorem parseLoop_nil (env : HttpEnv) (stack : HttpStack) (buffer : List UInt8)
    (cptr : HttpClient) :
    parseLoop env stack buffer 0 [] cptr = lineLoop env stack (headerLines buffer) 0 cptr :=
  parseLoop_eq env stack buffer (fun _ h => absurd h List.not_mem_nil) (by decide)

theorem requestLine_split (packet : List UInt8) :
    ∃ rest, packet = requestLine packet ++ rest ∧ ∀ c ∈ rest.head?, c = 0x0d ∨ c = 0x0a := by
  refine ⟨packet.dropWhile fun c => !(c = 0x0d || c = 0x0a),
    List.takeWhile_append_dropWhile.symm, fun c hc => ?_⟩
  have h := List.head?_dropWhile_not (fun c => !(c = 0x0d || c = 0x0a)) packet
  rw [Option.mem_def.mp hc] at h
  simpa only [Bool.not_eq_false', Bool.or_eq_true, decide_eq_true_eq] using h

theorem requestLine_drop (packet : List UInt8) :
    packet = requestLine packet ++ packet.drop (requestLine packet).length ∧
      ∀ c ∈ (packet.drop (requestLine packet).length).head?, endsLine c = true := by
  obtain ⟨rest, hp, hrest⟩ := requestLine_split packet
  have hdrop := congrArg (List.drop (requestLine packet).length) hp
  rw [List.drop_left] at hdrop
  rw [hdrop]
  refine ⟨hp, fun c hc => ?_⟩
  rcases hrest c hc with rfl | rfl
  · rfl
  · rfl

/-- Behind the request line stand lines of the packet. -/
theorem headerLines_drop {packet line : List UInt8}
    (h : line ∈ headerLines (packet.drop (requestLine packet).length)) :
    line ∈ headerLines packet := by
  obtain ⟨hp, heol⟩ := requestLine_drop packet
  rw [hp, headerLines, pieces_append _ heol]
  exact List.mem_append_right _ h

/-- What no header function touches. -/
structure SameButFlags (c c' : HttpClient) : Prop where
  uuid : c'.uuid = c.uuid
  hurl : c'.hurl = c.hurl
  hparsefunc : c'.hparsefunc = c.hparsefunc
  hostHeader : c'.hostHeader = c.hostHeader
  log : c'.log = c.log

theorem SameButFlags.trans {c c' c'' : HttpClient} (h : SameButFlags c c')
    (h' : SameButFlags c' c'') : SameButFlags c c'' :=
  ⟨h'.uuid.trans h.uuid, h'.hurl.trans h.hurl, h'.hparsefunc.trans h.hparsefunc,
    h'.hostHeader.trans h.hostHeader, h'.log.trans h.log⟩

theorem HttpHeader.func_frame (h : HttpHeader) (env : HttpEnv) (stack : UInt8 × Uuid)
    (string : List UInt8) (c : HttpClient) : SameButFlags c (h.func env stack string c) := by
  cases h with
  | acceptEncoding =>
      simp only [HttpHeader.func, httpAcceptEncoding]
      split <;> exact ⟨rfl, rfl, rfl, rfl, rfl⟩
  | contentLength => exact ⟨rfl, rfl, rfl, rfl, rfl⟩
  | cookie =>
      simp only [HttpHeader.func, httpCookie]
      split
      · exact ⟨rfl, rfl, rfl, rfl, rfl⟩
      · split <;> exact ⟨rfl, rfl, rfl, rfl, rfl⟩
  | expect => exact ⟨rfl, rfl, rfl, rfl, rfl⟩
  | host =>
      simp only [HttpHeader.func, httpHostHeader]
      split
      · exact ⟨rfl, rfl, rfl, rfl, rfl⟩
      · split <;> exact ⟨rfl, rfl, rfl, rfl, rfl⟩

theorem runHeader_frame (env : HttpEnv) (stack : HttpStack) (n : Nat)
    (line name value : List UInt8) (cptr : HttpClient) :
    SameButFlags cptr (runHeader env stack n line name value cptr) := by
  rw [runHeader]
  cases lookupHeader name with
  | none => exact ⟨rfl, rfl, rfl, rfl, rfl⟩
  | some h => exact h.func_frame env _ _ cptr

theorem lineLoop_frame (lines : List (List UInt8)) :
    ∀ {n : Nat} {cptr cptr' : HttpClient} {data : Option (List UInt8)},
      lineLoop env stack lines n cptr = .ok (cptr', data) → SameButFlags cptr cptr' := by
  induction lines with
  | nil =>
      intro n cptr cptr' data h
      rw [lineLoop] at h
      cases h
      exact ⟨rfl, rfl, rfl, rfl, rfl⟩
  | cons line lines ih =>
      intro n cptr cptr' data h
      rw [lineLoop] at h
      split at h
      · cases h
      · cases hf : headerField line with
        | none =>
            rw [hf] at h
            cases h
            exact ⟨rfl, rfl, rfl, rfl, rfl⟩
        | some f =>
            rw [hf] at h
            exact (runHeader_frame ..).trans (ih h)

end Loop

/-! ## What the methods leave in the log -/

/-- What the methods themselves log: answers they send, pages, forms, uuids. -/
def HttpAct.OfMethod : HttpAct → Prop
  | .request _ => False
  | .call _ _ _ _ => False
  | .answer sender _ => sender ≠ .httpDopacket ∧ sender ≠ .parseClientHeader
  | _ => True

/-- The log grew, by entries of a method. -/
def MethodRan (c c' : HttpClient) : Prop :=
  ∃ acts, c'.log = acts ++ c.log ∧ ∀ a ∈ acts, a.OfMethod

namespace MethodRan

variable {c c' c'' : HttpClient}

theorem of_log (h : c'.log = c.log) : MethodRan c c' :=
  ⟨[], h, fun _ h => absurd h List.not_mem_nil⟩

theorem trans (h : MethodRan c c') (h' : MethodRan c' c'') : MethodRan c c'' := by
  obtain ⟨as, hl, ha⟩ := h
  obtain ⟨bs, hl', hb⟩ := h'
  refine ⟨bs ++ as, by rw [hl', hl, List.append_assoc], fun a hm => ?_⟩
  exact (List.mem_append.mp hm).elim (hb a) (ha a)

theorem does (h : MethodRan c c') {a : HttpAct} (ha : a.OfMethod) : MethodRan c (c'.does a) := by
  obtain ⟨as, hl, has⟩ := h
  refine ⟨a :: as, by rw [HttpClient.does, hl]; rfl, fun b hb => ?_⟩
  rcases List.mem_cons.mp hb with rfl | hb
  · exact ha
  · exact has b hb

theorem exitHttpd (h : MethodRan c c') : MethodRan c c'.exitHttpd := by
  have h' : MethodRan c (c'.does .exit) := h.does trivial
  exact h'

theorem refuse (h : MethodRan c c') {sender : HttpSender} {status : Nat}
    (hs : sender ≠ .httpDopacket ∧ sender ≠ .parseClientHeader) :
    MethodRan c (c'.refuse sender status) :=
  (h.does (a := .answer sender status) hs).exitHttpd

theorem mem_iff (h : MethodRan c c') {a : HttpAct} (ha : ¬ a.OfMethod) :
    a ∈ c'.log ↔ a ∈ c.log := by
  obtain ⟨as, hl, has⟩ := h
  rw [hl, List.mem_append]
  exact or_iff_right fun hm => ha (has a hm)

end MethodRan

section Methods

variable {env : HttpEnv} {stack : HttpStack} {url : List UInt8} {data : Option (List UInt8)}
  {c c' : HttpClient}

theorem httpGet_ran (env : HttpEnv) (url : List UInt8) (state : Option (List UInt8))
    (c : HttpClient) : MethodRan c (httpGet env url state c) := by
  have h0 : MethodRan c c := MethodRan.of_log rfl
  have hserve : MethodRan c
      (((if state.isNone then c.answer .httpGet 200 else c).does (.page url)).exitHttpd) := by
    split
    · exact ((h0.does (a := .answer .httpGet 200) ⟨HttpSender.noConfusion,
        HttpSender.noConfusion⟩).does (a := .page url) trivial).exitHttpd
    · exact (h0.does (a := .page url) trivial).exitHttpd
  have hrefuse : ∀ status, MethodRan c (c.refuse .httpGet status) :=
    fun _ => h0.refuse ⟨HttpSender.noConfusion, HttpSender.noConfusion⟩
  simp only [httpGet]
  split
  · exact hrefuse 417
  split
  case isFalse => exact h0
  split
  · exact hserve
  split
  · exact hserve
  split
  · split
    · exact hserve
    · exact hrefuse 403
  split
  · exact (h0.does (a := .page url) trivial).exitHttpd
  · exact hrefuse 404

theorem sendHttpCookie_ran (stack : HttpStack) (c : HttpClient) :
    MethodRan c (sendHttpCookie stack c) := by
  have h0 : MethodRan c c := MethodRan.of_log rfl
  simp only [sendHttpCookie]
  split
  · exact (h0.does (a := .generate stack.newUuid) trivial).does
      (a := .answer .sendHttpCookie 201) ⟨HttpSender.noConfusion, HttpSender.noConfusion⟩
  · exact h0.does (a := .answer .sendHttpCookie 201)
      ⟨HttpSender.noConfusion, HttpSender.noConfusion⟩

theorem httpLogon_ran (env : HttpEnv) (stack : HttpStack) (l : Logon) (c : HttpClient) :
    MethodRan c (httpLogon env stack l c) := by
  have h0 : MethodRan c c := MethodRan.of_log rfl
  have hrefuse : ∀ status, MethodRan c (c.refuse .httpPost status) :=
    fun _ => h0.refuse ⟨HttpSender.noConfusion, HttpSender.noConfusion⟩
  simp only [httpLogon]
  split
  · split
    · split
      · have hc : MethodRan c
            { c with httpflags := c.httpflags ||| hflagsAuthenticated } := MethodRan.of_log rfl
        exact (hc.trans (sendHttpCookie_ran stack _)).trans (httpGet_ran env _ _ _)
      · exact hrefuse 403
    · exact hrefuse 403
  split
  · exact (h0.does (a := .answer .httpPost 201)
      ⟨HttpSender.noConfusion, HttpSender.noConfusion⟩).trans (httpGet_ran env _ _ _)
  · exact hrefuse 500

theorem httpConfigure_ran {decoded : List UInt8} (h : httpConfigure env url decoded c = .ok c') :
    MethodRan c c' := by
  have h0 : MethodRan c c := MethodRan.of_log rfl
  rw [httpConfigure] at h
  split at h
  · obtain ⟨fields, -, h⟩ := bind_ok_iff.mp h
    obtain ⟨_, -, rfl⟩ := map_ok_iff.mp h
    split
    · exact h0
    · exact (h0.does (a := .configure _ _) trivial).exitHttpd
  · cases h
    exact h0.refuse ⟨HttpSender.noConfusion, HttpSender.noConfusion⟩

theorem httpPost_ran (h : httpPost env stack url data c = .ok c') : MethodRan c c' := by
  have hs : HttpSender.httpPost ≠ .httpDopacket ∧ HttpSender.httpPost ≠ .parseClientHeader :=
    ⟨HttpSender.noConfusion, HttpSender.noConfusion⟩
  have h0 : ∀ {d : HttpClient}, d.log = c.log → MethodRan c d := MethodRan.of_log
  simp only [httpPost] at h
  split at h
  · cases h
    exact (h0 rfl).refuse hs
  split at h
  · cases h
    exact h0 rfl
  split at h
  · cases h
    exact MethodRan.refuse (h0 rfl) hs
  split at h
  case isFalse =>
    cases h
    exact h0 rfl
  split at h
  · obtain ⟨l, -, rfl⟩ := map_ok_iff.mp h
    exact (h0 rfl).trans (httpLogon_ran env stack l _)
  split at h
  · have hconfigure := httpConfigure_ran h
    exact (h0 rfl).trans hconfigure
  · cases h
    exact MethodRan.refuse (h0 rfl) hs

/-- A method function is called once, and what follows is its own. -/
theorem callMethod_ran {func : HttpMethod} (h : callMethod env stack func url data c = .ok c') :
    MethodRan (c.does (.call env func url data)) c' := by
  cases func with
  | get =>
      cases h
      exact httpGet_ran env url data _
  | post => exact httpPost_ran h
  | mna =>
      cases h
      exact (MethodRan.of_log rfl).does (a := .answer .httpMna 405)
        ⟨HttpSender.noConfusion, HttpSender.noConfusion⟩

end Methods

/-! ## A server to try it on -/

/-- A server without operators, whose index page is `/`. -/
def emptyServer : HttpEnv where
  webconfig := false
  webconfigpass := []
  indexFile := ascii ['/']
  indexFileLen := 1
  requireIndex := false
  findOperator _ := none
  calcpass := id
  matchMask _ _ := false
  commit _ _ := .ok ()

/-- Memory that happens to be zero. -/
def zeroStack : HttpStack where
  cookie _ := (0, 0)
  past := []
  form := []
  newUuid := 1

end TrIrcd
