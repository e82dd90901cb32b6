import TrIrcd.Proofs.HttpHeaders

/-!
# Requests for another host

`HFLAGS_EMPTY_HOST` is set in `httpflags` and looked for in `flags`, where its
bit is `FLAGS_GOTID`, which no client of the web server has; and where the bit
is set, the method is called all the same. So `parse_client_header` never
keeps a request from its method. What does is `http_dopacket`, which answers
400 to a request line without a URL and to an absolute URL of another host.

`HostRule` is what is expected of a request; `hostRule_iff` says for which
requests it holds: for those with a matching `Host` header, and those that
`http_dopacket` answers with 400 from their first line. A matching header
clears the bit, wherever among the lines it stands (`lineLoop_seen`).
-/

namespace TrIrcd

open TrIrcd.Lib

/-! ## The request -/

/-- The empty line that ends a request head starts here. -/
def blankLine (s : List UInt8) : Bool :=
  [0x0d, 0x0a, 0x0d, 0x0a].isPrefixOf s || [0x0a, 0x0a].isPrefixOf s

/-- What is before the empty line. -/
def untilBlank : List UInt8 → List UInt8
  | [] => []
  | c :: s => if blankLine (c :: s) then [] else c :: untilBlank s

/-- The header lines of a request head, behind the request line. -/
def requestHeaders (packet : List UInt8) : List (List UInt8) :=
  headerLines (untilBlank (packet.drop (requestLine packet).length))

/-- A `Host` header that matches, or any if the listener has no `host_header`. -/
def HostLine (hostHeader : Option (List UInt8)) (line : List UInt8) : Prop :=
  ∃ name value, headerField line = some (name, value) ∧
    ircStrcmp name (ascii ['H', 'o', 's', 't']) = 0 ∧ ∀ h ∈ hostHeader, hostMatches h value = true

/-- The request has such a header. -/
def HasHost (hostHeader : Option (List UInt8)) (packet : List UInt8) : Prop :=
  ∃ line ∈ requestHeaders packet, HostLine hostHeader line

/-- No method function is called, and a 400 is sent. -/
def Refused (r : Except HttpFault HttpClient) : Prop :=
  ∃ c, r = .ok c ∧ (∀ env func url data, HttpAct.call env func url data ∉ c.log) ∧
    ∃ sender, HttpAct.answer sender 400 ∈ c.log

/-- A client prepared by `finalize_http_client`, with nothing logged yet. -/
def prepared (c : HttpClient) : HttpClient := finalizeHttpClient { c with log := [] }

/-- A request without a matching `Host` is refused, and to one with a matching
`Host` `parse_client_header` sends no 400. -/
def HostRule (env : HttpEnv) (stack : HttpStack) (packet : List UInt8) (c : HttpClient) : Prop :=
  (¬ HasHost c.hostHeader packet → Refused (httpDopacket env stack packet (prepared c))) ∧
    (HasHost c.hostHeader packet → ∀ c', httpDopacket env stack packet (prepared c) = .ok c' →
      HttpAct.answer .parseClientHeader 400 ∉ c'.log)

/-- The request line alone gets a 400: a method that is known, and no URL or
one of another host. -/
def LineRefused (packet : List UInt8) (c : HttpClient) : Prop :=
  c.httpflags &&& hflagsParseWait = 0 ∧ (requestLine packet).length < httpBufSize ∧
    ∃ method tokens, strtokens [0x20] (requestLine packet) = method :: tokens ∧
      (lookupMethod method).isSome = true ∧
      (tokens = [] ∨ ∃ url rest, tokens = url :: rest ∧ urlOfOther c.hostHeader url = true)

section Host

variable {env : HttpEnv} {stack : HttpStack} {c c' : HttpClient} {packet : List UInt8}

theorem blankLine_head {s : List UInt8} (h : blankLine s = true) :
    ∀ c ∈ s.head?, endsLine c = true := by
  intro c hc
  cases s with
  | nil => cases hc
  | cons d s =>
      cases hc
      simp only [blankLine, Bool.or_eq_true, List.isPrefixOf, Bool.and_eq_true, beq_iff_eq] at h
      rcases h with h | h
      · rw [← h.1]
        rfl
      · rw [← h.1]
        rfl

/-- The head ends where a line ends. -/
theorem untilBlank_append (s : List UInt8) :
    ∃ body, s = untilBlank s ++ body ∧ ∀ c ∈ body.head?, endsLine c = true := by
  induction s with
  | nil => exact ⟨[], rfl, fun _ h => by cases h⟩
  | cons d s ih =>
      rw [untilBlank]
      split
      · next hb => exact ⟨d :: s, rfl, blankLine_head hb⟩
      · obtain ⟨body, hs, hb⟩ := ih
        exact ⟨body, congrArg (d :: ·) hs, hb⟩

/-- The header lines of a request are among the lines of what follows the
request line, and among those of the packet. -/
theorem requestHeaders_subset {line : List UInt8} (h : line ∈ requestHeaders packet) :
    line ∈ headerLines (packet.drop (requestLine packet).length) ∧ line ∈ headerLines packet := by
  obtain ⟨body, hb, hbody⟩ := untilBlank_append (packet.drop (requestLine packet).length)
  have hrest : line ∈ headerLines (packet.drop (requestLine packet).length) := by
    rw [hb, headerLines, pieces_append _ hbody]
    exact List.mem_append_left _ h
  exact ⟨hrest, headerLines_drop hrest⟩

/-! ## The bit -/

/-- The bit that `parse_client_header` looks at is clear. -/
def HostSeen (c : HttpClient) : Prop := c.flags &&& hflagsEmptyHost = 0

theorem httpHostHeader_seen {string : List UInt8}
    (h : ∀ hh ∈ c.hostHeader, hostMatches hh string = true) :
    HostSeen (httpHostHeader string c) := by
  rw [httpHostHeader]
  cases hc : c.hostHeader with
  | none => exact and_not_self_word c.flags _
  | some hh =>
      simp only [h hh hc, if_true]
      exact and_not_self_word c.flags _

/-- No header sets it. -/
theorem HttpHeader.func_seen (h : HttpHeader) (env : HttpEnv) (stack : UInt8 × Uuid)
    (string : List UInt8) (hc : HostSeen c) : HostSeen (h.func env stack string c) := by
  cases h with
  | acceptEncoding =>
      simp only [HttpHeader.func, httpAcceptEncoding]
      split <;> exact hc
  | contentLength => exact hc
  | cookie =>
      simp only [HttpHeader.func, httpCookie]
      split
      · exact hc
      · split <;> exact hc
  | expect => exact hc
  | host =>
      simp only [HttpHeader.func, httpHostHeader]
      split
      · exact and_not_self_word c.flags _
      · split
        · exact and_not_self_word c.flags _
        · exact hc

theorem ircStrncmp_congr {d : UInt8} {s v w : List UInt8} {n : Int} (h : v.headD 0 = w.headD 0)
    (hnext : toUpper d = toUpper (w.headD 0) → v.tail.headD 0 = w.tail.headD 0 ∧
      ircStrncmp s v.tail (n - 1) = ircStrncmp s w.tail (n - 1)) :
    ircStrncmp (d :: s) v n = ircStrncmp (d :: s) w n := by
  simp only [ircStrncmp, h, toNat_sub_eq_zero]
  by_cases hd : toUpper d = toUpper (w.headD 0)
  · rw [if_pos hd, if_pos hd, (hnext hd).1, (hnext hd).2]
  · rw [if_neg hd, if_neg hd]

/-- The comparison ends at the end of the value. -/
theorem ircStrncmp_append_zero {s : List UInt8} (hs : 0 ∉ s) (v t : List UInt8) :
    ∀ n : Int, ircStrncmp s (v ++ 0 :: t) n = ircStrncmp s v n := by
  induction s generalizing v with
  | nil =>
      intro n
      cases v with
      | nil => rfl
      | cons d v => rfl
  | cons c s ih =>
      intro n
      have hc : c ≠ 0 := fun e => hs (by simp [e])
      have hs' : 0 ∉ s := fun h => hs (List.mem_cons_of_mem _ h)
      cases v with
      | nil => exact ircStrncmp_congr rfl fun h => absurd (toUpper_eq_zero.mp (h.trans rfl)) hc
      | cons d v =>
          have hd : (v ++ 0 :: t).headD 0 = v.headD 0 := by cases v <;> rfl
          exact ircStrncmp_congr rfl fun _ => ⟨hd, ih hs' v (n - 1)⟩

theorem lookupHeader_host {name : List UInt8}
    (h : ircStrcmp name (ascii ['H', 'o', 's', 't']) = 0) : lookupHeader name = some .host := by
  have hfold := ircStrcmp_eq_zero_iff.mp h
  have hne : ∀ other, foldName other ≠ foldName (ascii ['H', 'o', 's', 't']) →
      decide (ircStrcmp name other = 0) = false := by
    intro other ho
    refine decide_eq_false fun he => ho ?_
    rw [ircStrcmp_eq_zero_iff.mp he, ← hfold]
  simp only [lookupHeader, headerMessages, List.find?]
  rw [hne _ (by decide), hne _ (by decide), hne _ (by decide), hne _ (by decide), decide_eq_true h]
  rfl

theorem runHeader_seen {n : Nat} {line name value : List UInt8} (hc : HostSeen c) :
    HostSeen (runHeader env stack n line name value c) := by
  rw [runHeader]
  cases lookupHeader name with
  | none => exact hc
  | some h => exact h.func_seen env _ _ hc

theorem runHeader_host {n : Nat} {line name value : List UInt8} (hlen : line.length < httpBufSize)
    (hn : ircStrcmp name (ascii ['H', 'o', 's', 't']) = 0)
    (hv : ∀ h ∈ c.hostHeader, hostMatches h value = true) :
    HostSeen (runHeader env stack n line name value c) := by
  rw [runHeader, lookupHeader_host hn]
  refine httpHostHeader_seen fun hh hm => ?_
  obtain ⟨k, hk⟩ : ∃ k, httpBufSize - line.length = k + 1 :=
    ⟨httpBufSize - line.length - 1, by omega⟩
  rw [hk, List.replicate_succ, List.append_assoc, List.cons_append, hostMatches,
    ircStrncmp_append_zero (zero_notMem_cstr hh)]
  exact hv hh hm

/-- A matching header among the lines clears the bit, if the loop gets to the
end of the lines. -/
theorem lineLoop_seen (lines : List (List UInt8)) :
    ∀ {n : Nat} {c c' : HttpClient}, lineLoop env stack lines n c = .ok (c', none) →
      HostSeen c ∨ (∃ line ∈ lines, HostLine c.hostHeader line) → HostSeen c' := by
  induction lines with
  | nil =>
      intro n c c' h hs
      cases h
      exact hs.resolve_right fun ⟨_, hl, _⟩ => absurd hl List.not_mem_nil
  | cons line lines ih =>
      intro n c c' h hs
      rw [lineLoop] at h
      split at h
      · cases h
      · next hlen =>
          cases hf : headerField line with
          | none =>
              rw [hf] at h
              cases h
          | some f =>
              rw [hf] at h
              have hframe := (runHeader_frame env stack n line f.1 f.2 c).hostHeader
              refine ih h ?_
              rw [hframe]
              rcases hs with hs | ⟨l, hl, hhost⟩
              · exact Or.inl (runHeader_seen hs)
              · rcases List.mem_cons.mp hl with rfl | hl
                · obtain ⟨name, value, hfield, hn, hv⟩ := hhost
                  rw [hf] at hfield
                  cases hfield
                  exact Or.inl (runHeader_host (Nat.lt_of_not_le hlen) hn hv)
                · exact Or.inr ⟨l, hl, hhost⟩

theorem prepared_parseWait (c : HttpClient) :
    (prepared c).httpflags &&& hflagsParseWait = c.httpflags &&& hflagsParseWait := by
  have h1 : hflagsEmptyHost &&& hflagsParseWait = 0 := by decide
  have h2 : hflagsCookieNone &&& hflagsParseWait = 0 := by decide
  simp only [prepared, finalizeHttpClient, or_and_word, h1, h2, UInt32.or_zero]

/-! ## What `parse_client_header` logs -/

/-- The method function is called. -/
theorem parseClientHeader_calls {buffer url : List UInt8} {func : HttpMethod}
    (h : parseClientHeader env stack buffer url func c = .ok c') :
    ∃ data, HttpAct.call env func url data ∈ c'.log := by
  obtain ⟨⟨c₁, data⟩, -, hc⟩ := bind_ok_iff.mp h
  have hmem : ∀ {d : HttpClient} {data : Option (List UInt8)},
      callMethod env stack func url data d = .ok c' → HttpAct.call env func url data ∈ c'.log :=
    fun hd => ((callMethod_ran hd).mem_iff id).mpr List.mem_cons_self
  cases data with
  | some data => exact ⟨some data, hmem hc⟩
  | none => exact ⟨none, hmem hc⟩

/-- With a matching `Host` among the lines no 400 is sent. -/
theorem parseClientHeader_seen {buffer url : List UInt8} {func : HttpMethod}
    (h : parseClientHeader env stack buffer url func c = .ok c')
    (hhost : ∃ line ∈ headerLines buffer, HostLine c.hostHeader line)
    (hc : HttpAct.answer .parseClientHeader 400 ∉ c.log) :
    HttpAct.answer .parseClientHeader 400 ∉ c'.log := by
  obtain ⟨⟨c₁, data⟩, hloop, hcall⟩ := bind_ok_iff.mp h
  rw [parseLoop_nil] at hloop
  have hlog : c₁.log = c.log := (lineLoop_frame _ hloop).log
  have hmem : ∀ {data : Option (List UInt8)}, callMethod env stack func url data c₁ = .ok c' →
      HttpAct.answer .parseClientHeader 400 ∉ c'.log := by
    intro data hd hm
    have hno : ¬ (HttpAct.answer .parseClientHeader 400).OfMethod := fun ho => ho.2 rfl
    have hm' := ((callMethod_ran hd).mem_iff hno).mp hm
    rcases List.mem_cons.mp hm' with he | hm'
    · cases he
    · exact hc (hlog ▸ hm')
  cases data with
  | some data => exact hmem hcall
  | none =>
      have hseen : c₁.flags &&& hflagsEmptyHost = 0 := lineLoop_seen _ hloop (Or.inr hhost)
      simp only [hseen, ne_eq, not_true_eq_false, if_false] at hcall
      exact hmem hcall

end Host

/-! ## The rule -/

section Rule

variable {env : HttpEnv} {stack : HttpStack} {packet : List UInt8} {c : HttpClient}

/-- What gets past `http_dopacket` is handed to a method. -/
theorem httpDopacket_calls {c' : HttpClient}
    (h : httpDopacket env stack packet (prepared c) = .ok c') (hline : ¬ LineRefused packet c) :
    (∃ env func url data, HttpAct.call env func url data ∈ c'.log) ∨
      ∃ status, status ≠ 400 ∧ c' = (prepared c).refuse .httpDopacket status := by
  rw [httpDopacket, prepared_parseWait] at h
  split at h
  · next hwait =>
      dsimp only at h
      split at h
      · cases h
      next hlen =>
        split at h
        · cases h
        next method tokens htok =>
          split at h
          · cases h
            exact Or.inr ⟨501, by decide, rfl⟩
          next func hfunc =>
            have hbad : ∀ {P : Prop}, (tokens = [] ∨
                ∃ url rest, tokens = url :: rest ∧ urlOfOther c.hostHeader url = true) → P :=
              fun ht => absurd ⟨hwait, Nat.lt_of_not_le hlen, method, tokens, htok,
                Option.isSome_of_eq_some hfunc, ht⟩ hline
            cases tokens with
            | nil => exact hbad (Or.inl rfl)
            | cons url tokens =>
                dsimp only at h
                split at h
                · next hother => exact hbad (Or.inr ⟨url, tokens, rfl, hother⟩)
                split at h
                · cases h
                  exact Or.inr ⟨505, by decide, rfl⟩
                split at h
                · cases h
                · obtain ⟨data, hd⟩ := parseClientHeader_calls h
                  exact Or.inl ⟨env, func, _, data, hd⟩
  · split at h
    · cases h
    · next func _ =>
        obtain ⟨data, hd⟩ := parseClientHeader_calls h
        exact Or.inl ⟨env, func, _, data, hd⟩

theorem refused_lineRefused (h : Refused (httpDopacket env stack packet (prepared c))) :
    LineRefused packet c := by
  obtain ⟨c', hc, hcalls, sender, hans⟩ := h
  by_contra hline
  rcases httpDopacket_calls hc hline with ⟨e, func, url, data, hm⟩ | ⟨status, hs, rfl⟩
  · exact hcalls e func url data hm
  · have hlog : ((prepared c).refuse .httpDopacket status).log =
        [.exit, .answer .httpDopacket status] := rfl
    rw [hlog] at hans
    simp only [List.mem_cons, reduceCtorEq, HttpAct.answer.injEq, List.not_mem_nil, or_false,
      false_or] at hans
    exact hs hans.2.symm

/-- `http_dopacket` refuses it. -/
theorem LineRefused.httpDopacket (h : LineRefused packet c) :
    httpDopacket env stack packet (prepared c) = .ok ((prepared c).refuse .httpDopacket 400) := by
  obtain ⟨hwait, hlen, method, tokens, htok, hmethod, htokens⟩ := h
  obtain ⟨func, hfunc⟩ := Option.isSome_iff_exists.mp hmethod
  rw [TrIrcd.httpDopacket, prepared_parseWait, if_pos hwait]
  simp only [Nat.not_le_of_lt hlen, if_false, htok, hfunc]
  rcases htokens with rfl | ⟨url, rest, rfl, hother⟩
  · rfl
  · have hother' : urlOfOther (prepared c).hostHeader url = true := hother
    simp only [hother', if_true]

theorem httpDopacket_seen {c' : HttpClient}
    (h : httpDopacket env stack packet (prepared c) = .ok c')
    (hhost : HasHost c.hostHeader packet) :
    HttpAct.answer .parseClientHeader 400 ∉ c'.log := by
  obtain ⟨line, hl, hline⟩ := hhost
  obtain ⟨hrest, hall⟩ := requestHeaders_subset hl
  have hempty : HttpAct.answer .parseClientHeader 400 ∉ (prepared c).log := List.not_mem_nil
  have hrefuse : ∀ status,
      HttpAct.answer .parseClientHeader 400 ∉ ((prepared c).refuse .httpDopacket status).log := by
    intro status hm
    have hlog : ((prepared c).refuse .httpDopacket status).log =
        [.exit, .answer .httpDopacket status] := rfl
    rw [hlog] at hm
    simp only [List.mem_cons, reduceCtorEq, HttpAct.answer.injEq, List.not_mem_nil, or_false,
      false_and] at hm
  rw [httpDopacket] at h
  split at h
  · dsimp only at h
    split at h
    · cases h
    split at h
    · cases h
    split at h
    · cases h
      exact hrefuse 501
    split at h
    · cases h
      exact hrefuse 400
    split at h
    · cases h
      exact hrefuse 400
    split at h
    · cases h
      exact hrefuse 505
    split at h
    · cases h
    · exact parseClientHeader_seen h ⟨line, hrest, hline⟩ hempty
  · split at h
    · cases h
    · exact parseClientHeader_seen h ⟨line, hall, hline⟩ hempty

/-- The rule holds for the requests with a matching `Host` header and for those
that `http_dopacket` refuses. -/
theorem hostRule_iff : HostRule env stack packet c ↔
    HasHost c.hostHeader packet ∨ LineRefused packet c := by
  refine ⟨fun h => ?_, fun h => ⟨fun hno => ?_, fun hhost c' hc => httpDopacket_seen hc hhost⟩⟩
  · by_cases hhost : HasHost c.hostHeader packet
    · exact Or.inl hhost
    · exact Or.inr (refused_lineRefused (h.1 hhost))
  · have hline := h.resolve_left hno
    refine ⟨_, hline.httpDopacket, fun e func url data hm => ?_, .httpDopacket, ?_⟩
    · have hlog : ((prepared c).refuse .httpDopacket 400).log =
          [.exit, .answer .httpDopacket 400] := rfl
      rw [hlog] at hm
      simp only [List.mem_cons, reduceCtorEq, List.not_mem_nil, or_false] at hm
    · exact List.mem_cons_of_mem _ List.mem_cons_self

def strayRequest : List UInt8 :=
  ascii ['G', 'E', 'T', ' ', '/', ' ', 'H', 'T', 'T', 'P', '/', '1', '.', '1', '\r', '\n',
    'H', 'o', 's', 't', ':', ' ', 'b', 'a', 'd', '\r', '\n', '\r', '\n']

/-- A client of a listener for the host `example`. -/
def exampleClient : HttpClient :=
  makeHttpClient (some (ascii ['e', 'x', 'a', 'm', 'p', 'l', 'e']))

/-- A request for the host `bad` gets the page of `example`, and a 200. -/
theorem strayRequest_served :
    ¬ HostRule emptyServer zeroStack strayRequest exampleClient ∧
      (httpDopacket emptyServer zeroStack strayRequest (prepared exampleClient)).map
          HttpClient.log =
        .ok [.exit, .page (ascii ['/']), .answer .httpGet 200,
          .call emptyServer .get (ascii ['/']) none] := by
  have hlog : (httpDopacket emptyServer zeroStack strayRequest (prepared exampleClient)).map
      HttpClient.log = .ok [.exit, .page (ascii ['/']), .answer .httpGet 200,
        .call emptyServer .get (ascii ['/']) none] := rfl
  refine ⟨fun h => ?_, hlog⟩
  have hlines : requestHeaders strayRequest =
      [ascii ['H', 'o', 's', 't', ':', ' ', 'b', 'a', 'd']] := by
    decide
  have hno : ¬ HasHost exampleClient.hostHeader strayRequest := by
    intro hhost
    obtain ⟨line, hl, name, value, hf, -, hv⟩ := hhost
    rw [hlines, List.mem_singleton] at hl
    subst hl
    cases hf
    exact absurd (hv _ rfl) (by decide)
  obtain ⟨c', hc, hcalls, -⟩ := h.1 hno
  rw [hc] at hlog
  have hacts := Except.ok.inj hlog
  exact hcalls emptyServer .get (ascii ['/']) none (by rw [hacts]; simp)

end Rule

end TrIrcd
