import TrIrcd.Proofs.HttpHost
import TrIrcd.Proofs.HttpLogin

/-!
# Requests in several packets

A packet is read line by line, from a new line on: what the last one began is
forgotten. So a header that is cut before its colon is taken for the data, and
so is what follows a cut behind it; and the request line has to be in the first
packet up to the dot of its version.

A packet that goes to a method calls it once, with the first line that has no
colon (`parseClientHeader_heard`). After a call with data, and after any call of
`http_get`, the client is dead and further packets are not looked at
(`Ready.ends`); after one without data `http_post` waits for the next packet
(`Ready.waits`). The exception is a class that `class.htc` turns down: there the
client is left as it is, and the next packet is another request. So what the
method is called with can be read off the lines of the packets (`parse_run_iff`).

`http_post` does not come back from every form. It looks into one for the logon
page, and into one for a page of the configuration if the client is logged in,
which a new client can be by the headers alone, with a cookie for the uuid of
zeros (`LoggedIn`).
-/

namespace TrIrcd

open TrIrcd.Lib

/-! ## The lines of a packet -/

/-- The lines that are run as headers. -/
def headersOf (lines : List (List UInt8)) : List (List UInt8) :=
  lines.takeWhile fun line => 0x3a ∈ line

/-- What the method is called with: the first line without a colon. -/
def dataOf (lines : List (List UInt8)) : Option (List UInt8) :=
  (lines.find? fun line => 0x3a ∉ line).map (decodeInto [])

/-- A line with this header. -/
def HasHeader (h : HttpHeader) (line : List UInt8) : Prop :=
  ∃ f ∈ headerField line, lookupHeader f.1 = some h

/-- A cookie, as `http_cookie` finds it, with this uuid. -/
def OwnCookie (slot : UInt8 × Uuid) (string : List UInt8) (uuid : Uuid) : Prop :=
  ∃ text, cookieId slot.1 string = some text ∧ (uuidParse text).getD slot.2 = uuid

/-- The header line with this number shows the uuid in a cookie. -/
def ShowsUuid (stack : HttpStack) (uuid : Uuid) (n : Nat) (line : List UInt8) : Prop :=
  ∃ f ∈ headerField line, lookupHeader f.1 = some .cookie ∧
    OwnCookie (stack.cookie n)
      (f.2 ++ List.replicate (httpBufSize - line.length) 0 ++ stack.past) uuid

/-- One of these lines does, the first of which has the number `n`. -/
def Shows (stack : HttpStack) (uuid : Uuid) : Nat → List (List UInt8) → Prop
  | _, [] => False
  | n, line :: lines => ShowsUuid stack uuid n line ∨ Shows stack uuid (n + 1) lines

/-- The calls of a method, the first first. -/
def HttpClient.calls (c : HttpClient) : List (HttpMethod × List UInt8 × Option (List UInt8)) :=
  c.log.reverse.filterMap fun
    | .call _ func url data => some (func, url, data)
    | _ => none

def HttpClient.Dead (c : HttpClient) : Prop := c.flags &&& flagsDeadsocket ≠ 0

/-- What header lines do to a client. -/
structure Heard (stack : HttpStack) (n : Nat) (lines : List (List UInt8)) (c c' : HttpClient) :
    Prop where
  frame : SameButFlags c c'
  dead : c'.flags &&& flagsDeadsocket = c.flags &&& flagsDeadsocket
  seen : HostSeen c → HostSeen c'
  wait : c'.httpflags &&& hflagsParseWait = c.httpflags &&& hflagsParseWait
  expect : c'.expectationFailed = true ↔
    c.expectationFailed = true ∨ ∃ line ∈ lines, HasHeader .expect line
  length : c'.lenToParse ≠ 0 ↔
    c.lenToParse ≠ 0 ∨ ∃ line ∈ lines, HasHeader .contentLength line
  auth : c'.authenticated = true ↔ c.authenticated = true ∨ Shows stack c.uuid n lines

section Lines

variable {env : HttpEnv} {stack : HttpStack} {n : Nat} {c c' c'' : HttpClient}

theorem Heard.refl (stack : HttpStack) (n : Nat) (c : HttpClient) : Heard stack n [] c c where
  frame := ⟨rfl, rfl, rfl, rfl, rfl⟩
  dead := rfl
  seen := id
  wait := rfl
  expect := by simp
  length := by simp
  auth := (or_iff_left id).symm

theorem Heard.cons {line : List UInt8} {lines : List (List UInt8)} (h : Heard stack n [line] c c')
    (h' : Heard stack (n + 1) lines c' c'') : Heard stack n (line :: lines) c c'' where
  frame := h.frame.trans h'.frame
  dead := h'.dead.trans h.dead
  seen hc := h'.seen (h.seen hc)
  wait := h'.wait.trans h.wait
  expect := by
    rw [h'.expect, h.expect]
    simp only [List.mem_cons, List.not_mem_nil, or_false, exists_eq_left, exists_eq_or_imp,
      or_assoc]
  length := by
    rw [h'.length, h.length]
    simp only [List.mem_cons, List.not_mem_nil, or_false, exists_eq_left, exists_eq_or_imp,
      or_assoc]
  auth := by
    rw [h'.auth, h.auth, h.frame.uuid]
    simp only [Shows, or_false, or_assoc]

/-- What one header function does. -/
structure HttpHeader.Ran (h : HttpHeader) (c c' : HttpClient) : Prop where
  dead : c'.flags &&& flagsDeadsocket = c.flags &&& flagsDeadsocket
  wait : c'.httpflags &&& hflagsParseWait = c.httpflags &&& hflagsParseWait
  expect : c'.expectationFailed = true ↔ c.expectationFailed = true ∨ h = .expect
  length : c'.lenToParse ≠ 0 ↔ c.lenToParse ≠ 0 ∨ h = .contentLength

theorem expectationFailed_congr
    (h : c'.httpflags &&& hflagsExpectationFailed = c.httpflags &&& hflagsExpectationFailed) :
    c'.expectationFailed = c.expectationFailed := by
  rw [HttpClient.expectationFailed, HttpClient.expectationFailed, h]

theorem authenticated_congr
    (h : c'.httpflags &&& hflagsAuthenticated = c.httpflags &&& hflagsAuthenticated) :
    c'.authenticated = c.authenticated := by
  rw [HttpClient.authenticated, HttpClient.authenticated, h]

/-- A header function that leaves both bits and the length. -/
theorem HttpHeader.Ran.of_words {h : HttpHeader} (hdead : c'.flags &&& flagsDeadsocket =
      c.flags &&& flagsDeadsocket)
    (hword : ∀ k ∈ [hflagsParseWait, hflagsExpectationFailed],
      c'.httpflags &&& k = c.httpflags &&& k)
    (hlength : c'.lenToParse = c.lenToParse) (hexpect : h ≠ .expect)
    (hlen : h ≠ .contentLength) : h.Ran c c' where
  dead := hdead
  wait := hword _ (by simp)
  expect := by
    rw [expectationFailed_congr (hword _ (by simp))]
    exact (or_iff_left hexpect).symm
  length := by
    rw [hlength]
    exact (or_iff_left hlen).symm

theorem HttpHeader.func_ran (h : HttpHeader) (env : HttpEnv) (stack : UInt8 × Uuid)
    (string : List UInt8) (c : HttpClient) : h.Ran c (h.func env stack string c) := by
  cases h with
  | acceptEncoding =>
      simp only [HttpHeader.func, httpAcceptEncoding]
      split
      · refine .of_words rfl (fun k hk => ?_) rfl (by simp) (by simp)
        have hzero : hflagsGzip &&& k = 0 := by
          revert k
          exact forall_mem_of_all (by decide)
        rw [or_and_word, hzero, UInt32.or_zero]
      · exact .of_words rfl (fun _ _ => rfl) rfl (by simp) (by simp)
  | contentLength =>
      refine ⟨rfl, rfl, ?_, ?_⟩
      · rw [show (HttpHeader.contentLength.func env stack string c).expectationFailed =
          c.expectationFailed from rfl]
        simp
      · have hne : (httpContentLength string c).lenToParse ≠ 0 := by
          simp only [httpContentLength]
          split <;> omega
        exact ⟨fun _ => .inr rfl, fun _ => hne⟩
  | cookie =>
      simp only [HttpHeader.func, httpCookie]
      split
      · refine .of_words rfl (fun k hk => ?_) rfl (by simp) (by simp)
        have hkeep : ~~~hflagsCookieRead &&& k = k ∧ hflagsCookieNone &&& k = 0 := by
          revert k
          exact forall_mem_of_all (by decide)
        rw [and_not_and_word hkeep.1, or_and_word, hkeep.2, UInt32.or_zero]
      · split
        · refine .of_words rfl (fun k hk => ?_) rfl (by simp) (by simp)
          have hkeep : ~~~hflagsCookieNone &&& k = k ∧ hflagsAuthenticated &&& k = 0 ∧
              hflagsCookieRead &&& k = 0 := by
            revert k
            exact forall_mem_of_all (by decide)
          rw [and_not_and_word hkeep.1, or_and_word, or_and_word, hkeep.2.1, hkeep.2.2,
            UInt32.or_zero, UInt32.or_zero]
        · exact .of_words rfl (fun _ _ => rfl) rfl (by simp) (by simp)
  | expect =>
      refine ⟨rfl, ?_, ?_, ?_⟩
      · show (c.httpflags ||| hflagsExpectationFailed) &&& hflagsParseWait = _
        rw [or_and_word, show hflagsExpectationFailed &&& hflagsParseWait = 0 by decide,
          UInt32.or_zero]
      · have hset : (httpExpect c).expectationFailed = true := by
          rw [HttpClient.expectationFailed, httpExpect, or_and_self_word]
          decide
        exact ⟨fun _ => .inr rfl, fun _ => hset⟩
      · exact (or_iff_left (by simp)).symm
  | host =>
      have hclear : c.flags &&& ~~~hflagsEmptyHost &&& flagsDeadsocket =
          c.flags &&& flagsDeadsocket := and_not_and_word (by decide) _
      simp only [HttpHeader.func, httpHostHeader]
      split
      · exact .of_words hclear (fun _ _ => rfl) rfl (by simp) (by simp)
      · split
        · exact .of_words hclear (fun _ _ => rfl) rfl (by simp) (by simp)
        · exact .of_words rfl (fun _ _ => rfl) rfl (by simp) (by simp)

/-- A client is logged in by its own uuid, and by no other header. -/
theorem HttpHeader.func_authenticated (h : HttpHeader) (env : HttpEnv) (slot : UInt8 × Uuid)
    (string : List UInt8) (c : HttpClient) :
    (h.func env slot string c).authenticated = true ↔
      c.authenticated = true ∨ h = .cookie ∧ OwnCookie slot string c.uuid := by
  have hother : ∀ {c' : HttpClient} {h : HttpHeader}, h ≠ .cookie →
      c'.httpflags &&& hflagsAuthenticated = c.httpflags &&& hflagsAuthenticated →
      (c'.authenticated = true ↔
        c.authenticated = true ∨ h = .cookie ∧ OwnCookie slot string c.uuid) := by
    intro c' h hne hword
    rw [authenticated_congr hword]
    exact (or_iff_left fun hcookie => hne hcookie.1).symm
  cases h with
  | acceptEncoding =>
      simp only [HttpHeader.func, httpAcceptEncoding]
      split
      · refine hother HttpHeader.noConfusion ?_
        rw [or_and_word, show hflagsGzip &&& hflagsAuthenticated = 0 by decide, UInt32.or_zero]
      · exact hother HttpHeader.noConfusion rfl
  | contentLength => exact hother HttpHeader.noConfusion rfl
  | cookie =>
      have hread : ∀ f : UInt32, (f ||| hflagsCookieNone) &&& ~~~hflagsCookieRead &&&
          hflagsAuthenticated = f &&& hflagsAuthenticated := by
        intro f
        rw [and_not_and_word (by decide), or_and_word,
          show hflagsCookieNone &&& hflagsAuthenticated = 0 by decide, UInt32.or_zero]
      simp only [HttpHeader.func, httpCookie, OwnCookie, true_and]
      cases hid : cookieId slot.1 string with
      | none =>
          rw [authenticated_congr (hread c.httpflags)]
          simp
      | some text =>
          simp only [Option.some.injEq, exists_eq_left']
          split
          next heq =>
            refine iff_of_true ?_ (.inr heq)
            rw [HttpClient.authenticated, and_not_and_word (by decide), or_and_word,
              or_and_self_word]
            decide
          next hne => exact (or_iff_left hne).symm
  | expect =>
      refine hother HttpHeader.noConfusion ?_
      show (c.httpflags ||| hflagsExpectationFailed) &&& hflagsAuthenticated = _
      rw [or_and_word, show hflagsExpectationFailed &&& hflagsAuthenticated = 0 by decide,
        UInt32.or_zero]
  | host =>
      simp only [HttpHeader.func, httpHostHeader]
      split
      · exact hother HttpHeader.noConfusion rfl
      · split <;> exact hother HttpHeader.noConfusion rfl

theorem runHeader_heard (n : Nat) {line name value : List UInt8}
    (hf : headerField line = some (name, value)) (c : HttpClient) :
    Heard stack n [line] c (runHeader env stack n line name value c) := by
  have hfield : ∀ h, HasHeader h line ↔ lookupHeader name = some h := by
    intro h
    simp [HasHeader, hf]
  have hshows : Shows stack c.uuid n [line] ↔ lookupHeader name = some .cookie ∧
      OwnCookie (stack.cookie n)
        (value ++ List.replicate (httpBufSize - line.length) 0 ++ stack.past) c.uuid := by
    simp [Shows, ShowsUuid, hf]
  refine ⟨runHeader_frame env stack n line name value c, ?_, runHeader_seen, ?_, ?_, ?_, ?_⟩ <;>
    simp only [List.mem_singleton, exists_eq_left, hfield, hshows, runHeader] <;>
    cases lookupHeader name with
  | none => simp
  | some h =>
      have hran := h.func_ran env (stack.cookie n)
        (value ++ List.replicate (httpBufSize - line.length) 0 ++ stack.past) c
      first
      | exact hran.dead
      | exact hran.wait
      | simpa using hran.expect
      | simpa using hran.length
      | simpa using h.func_authenticated env (stack.cookie n) _ c

theorem headerField_eq_none {line : List UInt8} : headerField line = none ↔ 0x3a ∉ line := by
  rw [headerField, Option.map_eq_none_iff, cutAt]
  split <;> simp [*]

/-- The lines up to the data are run, one after the other. -/
theorem lineLoop_heard (env : HttpEnv) (stack : HttpStack) (lines : List (List UInt8)) :
    ∀ (n : Nat) (c : HttpClient), (∀ line ∈ lines, line.length < httpBufSize) →
      ∃ c', lineLoop env stack lines n c = .ok (c', dataOf lines) ∧
        Heard stack n (headersOf lines) c c' := by
  induction lines with
  | nil => exact fun n c _ => ⟨c, rfl, Heard.refl stack n c⟩
  | cons line lines ih =>
      intro n c hshort
      obtain ⟨hline, hshort⟩ := List.forall_mem_cons.mp hshort
      rw [lineLoop, if_neg (Nat.not_le_of_lt hline), headersOf, dataOf]
      cases hf : headerField line with
      | none =>
          have hno := headerField_eq_none.mp hf
          refine ⟨c, ?_, ?_⟩
          · simp [hno]
          · simp only [List.takeWhile_cons, hno, decide_false]
            exact Heard.refl stack n c
      | some f =>
          have hcolon : 0x3a ∈ line := by
            by_contra hno
            rw [headerField_eq_none.mpr hno] at hf
            cases hf
          obtain ⟨c', hok, hheard⟩ := ih (n + 1) (runHeader env stack n line f.1 f.2 c) hshort
          refine ⟨c', ?_, ?_⟩
          · simp only [hok, List.find?_cons, hcolon, not_true_eq_false, decide_false]
            rfl
          · simp only [List.takeWhile_cons, hcolon, decide_true]
            exact (runHeader_heard n hf c).cons hheard

/-- A packet is one call of the method, after its headers. -/
theorem parseClientHeader_heard (env : HttpEnv) (stack : HttpStack) {buffer : List UInt8}
    (url : List UInt8) (func : HttpMethod) (hseen : HostSeen c)
    (hshort : ∀ line ∈ headerLines buffer, line.length < httpBufSize) :
    ∃ c', Heard stack 0 (headersOf (headerLines buffer)) c c' ∧
      parseClientHeader env stack buffer url func c =
        callMethod env stack func url (dataOf (headerLines buffer)) c' := by
  obtain ⟨c', hok, hheard⟩ := lineLoop_heard env stack _ 0 c hshort
  refine ⟨c', hheard, ?_⟩
  have hclear : c'.flags &&& hflagsEmptyHost = 0 := hheard.seen hseen
  rw [parseClientHeader, parseLoop_nil, hok]
  cases dataOf (headerLines buffer) with
  | none => simp only [Except.bind, hclear, ne_eq, not_true_eq_false, if_false]
  | some data => rfl

end Lines

/-! ## The call of a method -/

section Calls

variable {env : HttpEnv} {stack : HttpStack} {url : List UInt8} {data : Option (List UInt8)}
  {func : HttpMethod} {c c' : HttpClient}

theorem MethodRan.calls (h : MethodRan c c') : c'.calls = c.calls := by
  obtain ⟨acts, hlog, hacts⟩ := h
  rw [HttpClient.calls, HttpClient.calls, hlog, List.reverse_append, List.filterMap_append]
  refine (congrArg _ (List.filterMap_eq_nil_iff.mpr fun a ha => ?_)).trans (List.append_nil _)
  have hmethod := hacts a (List.mem_reverse.mp ha)
  cases a with
  | call => exact hmethod.elim
  | _ => rfl

theorem callMethod_calls (h : callMethod env stack func url data c = .ok c') :
    c'.calls = c.calls ++ [(func, url, data)] := by
  rw [(callMethod_ran h).calls, HttpClient.calls, HttpClient.calls, HttpClient.does,
    List.reverse_cons, List.filterMap_append]
  rfl

theorem exitHttpd_dead (c : HttpClient) : c.exitHttpd.Dead := by
  have hdead : c.exitHttpd.flags &&& flagsDeadsocket = flagsDeadsocket := by
    show (c.flags ||| flagsDeadsocket ||| flagsClosing ||| flagsExited) &&& flagsDeadsocket = _
    rw [or_and_word, or_and_word, or_and_self_word]
    decide
  rw [HttpClient.Dead, hdead]
  decide

theorem httpGet_dead (env : HttpEnv) (hurl : url.headD 0 = 0x2f) (c : HttpClient) :
    (httpGet env url data c).Dead := by
  simp only [httpGet, hurl, if_true]
  split
  · exact exitHttpd_dead _
  split
  · exact exitHttpd_dead _
  split
  · exact exitHttpd_dead _
  split
  · split <;> exact exitHttpd_dead _
  split <;> exact exitHttpd_dead _

theorem httpLogon_dead (l : Logon) (c : HttpClient) : (httpLogon env stack l c).Dead := by
  simp only [httpLogon]
  split
  · split
    · split
      · exact httpGet_dead env rfl _
      · exact exitHttpd_dead _
    · exact exitHttpd_dead _
  split
  · exact httpGet_dead env rfl _
  · exact exitHttpd_dead _

/-- A page of the configuration. -/
def configUrl (url : List UInt8) : Prop :=
  url.headD 0 = 0x2f ∧ ircStrcmp url.tail logonPage ≠ 0 ∧ configPage url.tail = true

/-- `http_post` can read the form it looks into: the elements have values, and a
page of the configuration comes to its end. -/
def FormReads (env : HttpEnv) (stack : HttpStack) (url data : List UInt8) (auth : Prop) : Prop :=
  logonUrl url ∨ configUrl url ∧ auth →
    ∃ fields, formFields (decodeInto stack.form data) = .ok fields ∧
      (configUrl url → env.commit url fields = .ok ())

/-- `class.htc` turns the form down. -/
def FormTurnedDown (stack : HttpStack) (url data : List UInt8) (auth : Prop) : Prop :=
  configUrl url ∧ auth ∧ ∃ fields, formFields (decodeInto stack.form data) = .ok fields ∧
    turnsDown url.tail fields = true

theorem httpConfigure_ok_iff {decoded : List UInt8} :
    (∃ c', httpConfigure env url decoded c = .ok c') ↔ (c.authenticated = true →
      ∃ fields, formFields decoded = .ok fields ∧ env.commit url fields = .ok ()) := by
  rw [httpConfigure]
  split
  next hauth =>
    constructor
    · rintro ⟨c', h⟩ -
      obtain ⟨fields, hfields, h⟩ := bind_ok_iff.mp h
      obtain ⟨_, hcommit, -⟩ := map_ok_iff.mp h
      exact ⟨fields, hfields, hcommit⟩
    · intro h
      obtain ⟨fields, hfields, hcommit⟩ := h hauth
      exact ⟨_, bind_ok_iff.mpr ⟨fields, hfields, map_ok_iff.mpr ⟨(), hcommit, rfl⟩⟩⟩
  next hauth => exact ⟨fun _ h => absurd h hauth, fun _ => ⟨_, rfl⟩⟩

/-- The client is dead then, unless the form was turned down. -/
theorem httpConfigure_dead {decoded : List UInt8}
    (hturn : ¬(c.authenticated = true ∧
      ∃ fields, formFields decoded = .ok fields ∧ turnsDown url.tail fields = true))
    (h : httpConfigure env url decoded c = .ok c') : c'.Dead := by
  rw [httpConfigure] at h
  split at h
  next hauth =>
    obtain ⟨fields, hfields, h⟩ := bind_ok_iff.mp h
    obtain ⟨_, -, rfl⟩ := map_ok_iff.mp h
    rw [if_neg fun hdown => hturn ⟨hauth, fields, hfields, hdown⟩]
    exact exitHttpd_dead _
  next =>
    cases h
    exact exitHttpd_dead _

/-- The client that `http_post` handles a form for. -/
def HttpClient.posted (c : HttpClient) : HttpClient :=
  { c with
    httpflags := c.httpflags &&& ~~~hflagsParseWait
    lenToParse := 0
    hparsefunc := some .mna }

theorem HttpClient.posted_authenticated (c : HttpClient) :
    c.posted.authenticated = c.authenticated :=
  authenticated_congr (and_not_and_word (by decide) c.httpflags)

/-- With data, `http_post` handles a form if there was a `Content-Length`. -/
theorem httpPost_data {data : List UInt8} (hexpect : c.expectationFailed = false)
    (hdata : data ≠ []) :
    httpPost env stack url (some data) c =
      if c.lenToParse = 0 then
        .ok ({ c with httpflags := c.httpflags &&& ~~~hflagsParseWait }.refuse .httpPost 411)
      else if url.headD 0 = 0x2f then
        if ircStrcmp url.tail logonPage = 0 then
          (logonFields (decodeInto stack.form data)).map fun l => httpLogon env stack l c.posted
        else if configPage url.tail then
          httpConfigure env url (decodeInto stack.form data) c.posted
        else .ok (c.posted.refuse .httpPost 404)
      else .ok c.posted := by
  simp only [httpPost, Option.getD_some, hexpect, Bool.false_eq_true, if_false, if_neg hdata]
  rfl

/-- `http_post` with data does not come back from a form that it cannot read. -/
theorem httpPost_data_ok {data : List UInt8} (hexpect : c.expectationFailed = false)
    (hdata : data ≠ []) :
    (∃ c', httpPost env stack url (some data) c = .ok c') ↔
      (c.lenToParse ≠ 0 → FormReads env stack url data (c.authenticated = true)) := by
  rw [httpPost_data hexpect hdata]
  split
  next hlen => exact ⟨fun _ hno => absurd hlen hno, fun _ => ⟨_, rfl⟩⟩
  next hlen =>
    refine Iff.trans ?_ (forall_prop_of_true hlen).symm
    split
    next hslash =>
      split
      next hlogon =>
        have hno : ¬configUrl url := fun hconfig => hconfig.2.1 hlogon
        constructor
        · rintro ⟨c', hc'⟩ -
          obtain ⟨l, hl, -⟩ := map_ok_iff.mp hc'
          obtain ⟨fields, hfields, -⟩ := map_ok_iff.mp hl
          exact ⟨fields, hfields, fun hconfig => absurd hconfig hno⟩
        · intro hform
          obtain ⟨fields, hfields, -⟩ := hform (.inl ⟨hslash, hlogon⟩)
          exact ⟨_, map_ok_iff.mpr ⟨_, map_ok_iff.mpr ⟨fields, hfields, rfl⟩, rfl⟩⟩
      next hlogon =>
        split
        next hpage =>
          have hconfig : configUrl url := ⟨hslash, hlogon, hpage⟩
          rw [httpConfigure_ok_iff, HttpClient.posted_authenticated]
          constructor
          · intro h hurl
            obtain ⟨fields, hfields, hend⟩ :=
              h (hurl.resolve_left fun hurl => hlogon hurl.2).2
            exact ⟨fields, hfields, fun _ => hend⟩
          · intro h hauth
            obtain ⟨fields, hfields, hend⟩ := h (.inr ⟨hconfig, hauth⟩)
            exact ⟨fields, hfields, hend hconfig⟩
        next hpage =>
          refine ⟨fun _ hurl => ?_, fun _ => ⟨_, rfl⟩⟩
          exact hurl.elim (fun hurl => absurd hurl.2 hlogon) fun hurl => absurd hurl.1.2.2 hpage
    next hslash =>
      refine ⟨fun _ hurl => ?_, fun _ => ⟨_, rfl⟩⟩
      exact hurl.elim (fun hurl => absurd hurl.1 hslash) fun hurl => absurd hurl.1.1 hslash

/-- And then the client is dead, unless the form was turned down. -/
theorem httpPost_data_dead {data : List UInt8} (hexpect : c.expectationFailed = false)
    (hurl : url.headD 0 = 0x2f) (hdata : data ≠ [])
    (hturn : c.lenToParse ≠ 0 → ¬FormTurnedDown stack url data (c.authenticated = true))
    (h : httpPost env stack url (some data) c = .ok c') : c'.Dead := by
  rw [httpPost_data hexpect hdata] at h
  split at h
  next =>
    cases h
    exact exitHttpd_dead _
  next hlen =>
    split at h
    next =>
      obtain ⟨l, -, rfl⟩ := map_ok_iff.mp h
      exact httpLogon_dead l _
    next hlogon =>
      split at h
      next hpage =>
        refine httpConfigure_dead ?_ h
        rw [HttpClient.posted_authenticated]
        exact fun hdown => hturn hlen ⟨⟨hurl, hlogon, hpage⟩, hdown⟩
      next =>
        cases h
        exact exitHttpd_dead _

/-- A form that is turned down leaves the client alive. -/
theorem httpPost_turnedDown {data : List UInt8} (hexpect : c.expectationFailed = false)
    (hdata : data ≠ []) (hlen : c.lenToParse ≠ 0)
    (hturn : FormTurnedDown stack url data (c.authenticated = true))
    (h : httpPost env stack url (some data) c = .ok c') : c' = c.posted := by
  obtain ⟨⟨hslash, hlogon, hpage⟩, hauth, fields, hfields, hdown⟩ := hturn
  rw [httpPost_data hexpect hdata, if_neg hlen, if_pos hslash, if_neg hlogon, if_pos hpage,
    httpConfigure, if_pos (c.posted_authenticated.trans hauth)] at h
  obtain ⟨fields', hfields', h⟩ := bind_ok_iff.mp h
  obtain ⟨_, -, rfl⟩ := map_ok_iff.mp h
  cases hfields.symm.trans hfields'
  exact if_pos hdown

end Calls

/-! ## A packet -/

/-- A packet, and what it is read with. -/
abbrev HttpPacket := HttpEnv × HttpStack × List UInt8

/-- A packet, and the lines that are read of it. -/
abbrev LinedPacket := HttpPacket × List (List UInt8)

/-- A packet has this header. -/
def HaveHeader (h : HttpHeader) (packets : List LinedPacket) : Prop :=
  ∃ p ∈ packets, ∃ line ∈ headersOf p.2, HasHeader h line

/-- A cookie in one of the packets has logged a new client in. -/
def LoggedIn (packets : List LinedPacket) : Prop :=
  ∃ p ∈ packets, Shows p.1.2.1 0 0 (headersOf p.2)

/-- A client that takes a packet for a path, after these packets. -/
structure Ready (hostHeader : Option (List UInt8)) (path : List UInt8)
    (packets : List LinedPacket) (c : HttpClient) : Prop where
  alive : ¬c.Dead
  seen : HostSeen c
  uuid : c.uuid = 0
  host : c.hostHeader = hostHeader
  url : c.hurl = path
  expect : c.expectationFailed = false
  length : c.lenToParse ≠ 0 ↔ HaveHeader .contentLength packets
  auth : c.authenticated = true ↔ LoggedIn packets

/-- It waits for the data of a `POST`. -/
structure PostWaits (hostHeader : Option (List UInt8)) (path : List UInt8)
    (packets : List LinedPacket) (c : HttpClient) : Prop extends
    Ready hostHeader path packets c where
  wait : c.httpflags &&& hflagsParseWait ≠ 0
  func : c.hparsefunc = some .post

/-- It waits for a request. -/
structure Idle (hostHeader : Option (List UInt8)) (c : HttpClient) : Prop where
  alive : ¬c.Dead
  host : c.hostHeader = hostHeader
  wait : c.httpflags &&& hflagsParseWait = 0

/-- The packet with these lines is the last that the method looks at. -/
def Ends (func : HttpMethod) (lines : List (List UInt8)) : Prop :=
  func = .get ∨ (∃ line ∈ headersOf lines, HasHeader .expect line) ∨ (dataOf lines).getD [] ≠ []

/-- `http_post` handles the data of this packet as a form. -/
structure Posts (func : HttpMethod) (seen : List LinedPacket) (p : LinedPacket)
    (data : List UInt8) : Prop where
  post : func = .post
  expect : ¬∃ line ∈ headersOf p.2, HasHeader .expect line
  length : HaveHeader .contentLength (seen ++ [p])
  body : dataOf p.2 = some data
  ne_nil : data ≠ []

/-- If `http_post` takes the data for a form, it can read it. -/
def FormOk (func : HttpMethod) (path : List UInt8) (seen : List LinedPacket) (p : LinedPacket) :
    Prop :=
  ∀ data, Posts func seen p data → FormReads p.1.1 p.1.2.1 path data (LoggedIn (seen ++ [p]))

/-- `class.htc` turns the data down. -/
def TurnedDown (func : HttpMethod) (path : List UInt8) (seen : List LinedPacket)
    (p : LinedPacket) : Prop :=
  ∃ data, Posts func seen p data ∧ FormTurnedDown p.1.2.1 path data (LoggedIn (seen ++ [p]))

section Packet

variable {hostHeader : Option (List UInt8)} {p : LinedPacket} {buffer path : List UInt8}
  {func : HttpMethod} {seen : List LinedPacket} {c c' : HttpClient}

theorem Ready.does (h : Ready hostHeader path seen c) (e : HttpAct) :
    Ready hostHeader path seen (c.does e) :=
  ⟨h.alive, h.seen, h.uuid, h.host, h.url, h.expect, h.length, h.auth⟩

theorem Ready.heard (h : Ready hostHeader path seen c)
    (hheard : Heard p.1.2.1 0 (headersOf p.2) c c')
    (hexpect : ¬∃ line ∈ headersOf p.2, HasHeader .expect line) :
    Ready hostHeader path (seen ++ [p]) c' where
  alive := by rw [HttpClient.Dead, hheard.dead]; exact h.alive
  seen := hheard.seen h.seen
  uuid := hheard.frame.uuid.trans h.uuid
  host := hheard.frame.hostHeader.trans h.host
  url := hheard.frame.hurl.trans h.url
  expect := by
    rw [← Bool.not_eq_true, hheard.expect, h.expect]
    simpa using hexpect
  length := by
    rw [hheard.length, h.length]
    simp only [HaveHeader, List.mem_append, List.mem_singleton, or_and_right, exists_or,
      exists_eq_left]
  auth := by
    rw [hheard.auth, h.auth, h.uuid]
    simp only [LoggedIn, List.mem_append, List.mem_singleton, or_and_right, exists_or,
      exists_eq_left]

theorem parseClientHeader_one_call {env : HttpEnv} {stack : HttpStack} (hseen : HostSeen c)
    (hshort : ∀ line ∈ headerLines buffer, line.length < httpBufSize)
    (hok : parseClientHeader env stack buffer path func c = .ok c') :
    c'.calls = c.calls ++ [(func, path, dataOf (headerLines buffer))] := by
  obtain ⟨c₁, hheard, hparse⟩ := parseClientHeader_heard env stack path func
    hseen hshort
  rw [hparse] at hok
  rw [callMethod_calls hok, HttpClient.calls, HttpClient.calls, hheard.frame.log]

/-- A packet that ends: its form is read, or there is no next state; and then the
client is dead, or was left by `class.htc`. -/
def EndsAs (hostHeader : Option (List UInt8)) (func : HttpMethod) (path : List UInt8)
    (seen : List LinedPacket) (p : LinedPacket) (result : Except HttpFault HttpClient) : Prop :=
  ((∃ c', result = .ok c') ↔ FormOk func path seen p) ∧
    ∀ c', result = .ok c' →
      ¬TurnedDown func path seen p ∧ c'.Dead ∨ TurnedDown func path seen p ∧ Idle hostHeader c'

/-- Without a form, it is the end of the client. -/
theorem endsAs_dead (hno : ∀ data, ¬Posts func seen p data) (hdead : c.Dead) :
    EndsAs hostHeader func path seen p (.ok c) := by
  refine ⟨⟨fun _ data hposts => absurd hposts (hno data), fun _ => ⟨_, rfl⟩⟩, fun c' hc' => ?_⟩
  cases hc'
  exact .inl ⟨fun hturn => hturn.elim fun data hdata => hno data hdata.1, hdead⟩

theorem posts_iff {data form : List UInt8} (hdata : dataOf p.2 = some data) (hne : data ≠ [])
    (hexpect : ¬∃ line ∈ headersOf p.2, HasHeader .expect line) :
    Posts .post seen p form ↔ HaveHeader .contentLength (seen ++ [p]) ∧ form = data := by
  constructor
  · intro hposts
    exact ⟨hposts.length, Option.some.inj (hposts.body.symm.trans hdata)⟩
  · rintro ⟨hlen, rfl⟩
    exact ⟨rfl, hexpect, hlen, hdata, hne⟩

/-- With data, it is what `http_post` does with them. -/
theorem httpPost_endsAs (h : Ready hostHeader path (seen ++ [p]) c) (hslash : path.headD 0 = 0x2f)
    {data : List UInt8} (hdata : dataOf p.2 = some data) (hne : data ≠ [])
    (hexpect : ¬∃ line ∈ headersOf p.2, HasHeader .expect line) :
    EndsAs hostHeader .post path seen p (httpPost p.1.1 p.1.2.1 path (some data) c) := by
  have hturn : TurnedDown .post path seen p ↔ c.lenToParse ≠ 0 ∧
      FormTurnedDown p.1.2.1 path data (c.authenticated = true) := by
    simp only [TurnedDown, posts_iff hdata hne hexpect, ← h.length, h.auth, and_assoc,
      exists_and_left, exists_eq_left]
  constructor
  · rw [httpPost_data_ok h.expect hne]
    simp only [FormOk, posts_iff hdata hne hexpect, ← h.length, h.auth, and_imp,
      forall_eq_apply_imp_iff]
  · intro c' hc'
    by_cases hdown : TurnedDown .post path seen p
    · refine .inr ⟨hdown, ?_⟩
      obtain ⟨hlen, hform⟩ := hturn.mp hdown
      rw [httpPost_turnedDown h.expect hne hlen hform hc']
      exact ⟨h.alive, h.host, and_not_self_word _ _⟩
    · refine .inl ⟨hdown, httpPost_data_dead h.expect hslash hne ?_ hc'⟩
      exact fun hlen hform => hdown (hturn.mpr ⟨hlen, hform⟩)

theorem Ready.ends (h : Ready hostHeader path seen c) (hslash : path.headD 0 = 0x2f)
    (hfunc : func ≠ .mna) (hlines : headerLines buffer = p.2)
    (hshort : ∀ line ∈ p.2, line.length < httpBufSize) (hends : Ends func p.2) :
    EndsAs hostHeader func path seen p
      (parseClientHeader p.1.1 p.1.2.1 buffer path func c) := by
  rw [← hlines] at hshort
  obtain ⟨c₁, hheard, hparse⟩ := parseClientHeader_heard p.1.1 p.1.2.1 path func h.seen hshort
  rw [hlines] at hheard hparse
  rw [hparse]
  cases func with
  | mna => exact absurd rfl hfunc
  | get =>
      exact endsAs_dead (fun _ hposts => absurd hposts.post (by decide)) (httpGet_dead _ hslash _)
  | post =>
      by_cases hexp : ∃ line ∈ headersOf p.2, HasHeader .expect line
      · have hfail : (c₁.does (.call p.1.1 .post path (dataOf p.2))).expectationFailed = true :=
          hheard.expect.mpr (.inr hexp)
        have hrefused : ∃ c₂ : HttpClient, callMethod p.1.1 p.1.2.1 .post path (dataOf p.2) c₁ =
            .ok (c₂.refuse .httpPost 417) := ⟨_, if_pos hfail⟩
        obtain ⟨c₂, hc₂⟩ := hrefused
        rw [hc₂]
        exact endsAs_dead (fun _ hposts => hposts.expect hexp) (exitHttpd_dead _)
      · cases hdata : dataOf p.2 with
        | none => exact absurd hends (by simp [Ends, hexp, hdata])
        | some data =>
            have hne : data ≠ [] := by simpa [Ends, hexp, hdata] using hends
            exact httpPost_endsAs ((h.heard hheard hexp).does _) hslash hdata hne hexp

/-- Any other packet of a `POST` is waited behind. -/
theorem Ready.waits (h : Ready hostHeader path seen c) (hfunc : func ≠ .mna)
    (hlines : headerLines buffer = p.2) (hshort : ∀ line ∈ p.2, line.length < httpBufSize)
    (hends : ¬Ends func p.2) :
    func = .post ∧ ∃ c', parseClientHeader p.1.1 p.1.2.1 buffer path func c = .ok c' ∧
      PostWaits hostHeader path (seen ++ [p]) c' := by
  obtain ⟨hget, hexp, hdata⟩ : func ≠ .get ∧
      (¬∃ line ∈ headersOf p.2, HasHeader .expect line) ∧ (dataOf p.2).getD [] = [] := by
    simpa only [Ends, not_or, not_not, ne_eq] using hends
  obtain rfl : func = .post := by cases func <;> simp_all
  rw [← hlines] at hshort
  obtain ⟨c₁, hheard, hparse⟩ := parseClientHeader_heard p.1.1 p.1.2.1 path .post
    h.seen hshort
  rw [hlines] at hheard hparse
  have hready := h.heard hheard hexp
  have hok : callMethod p.1.1 p.1.2.1 .post path (dataOf p.2) c₁ =
      .ok { c₁.does (.call p.1.1 .post path (dataOf p.2)) with
        httpflags := c₁.httpflags ||| hflagsParseWait
        hparsefunc := some .post } := by
    have hexpect : (c₁.does (.call p.1.1 .post path (dataOf p.2))).expectationFailed = false :=
      hready.expect
    simp only [callMethod, httpPost, hexpect, hdata, Bool.false_eq_true, if_false, if_true]
    rfl
  refine ⟨rfl, _, hparse.trans hok, ⟨⟨hready.alive, hready.seen, hready.uuid, hready.host,
    hready.url, ?_, hready.length, ?_⟩, ?_, rfl⟩⟩
  · rw [← hready.expect]
    refine expectationFailed_congr ?_
    rw [or_and_word, show hflagsParseWait &&& hflagsExpectationFailed = 0 by decide, UInt32.or_zero]
  · rw [← hready.auth]
    refine iff_of_eq (congrArg (· = true) (authenticated_congr ?_))
    rw [or_and_word, show hflagsParseWait &&& hflagsAuthenticated = 0 by decide, UInt32.or_zero]
  · rw [or_and_self_word]
    decide

end Packet

/-! ## Several packets -/

def readStep (c : HttpClient) (p : HttpPacket) : Except HttpFault HttpClient :=
  readHttpPacket p.1 p.2.1 p.2.2 c

/-- The calls so far, calls without data, and this one. -/
def EndsWith (calls : List (HttpMethod × List UInt8 × Option (List UInt8)))
    (call : HttpMethod × List UInt8 × Option (List UInt8))
    (calls' : List (HttpMethod × List UInt8 × Option (List UInt8))) : Prop :=
  ∃ waits, calls' = calls ++ waits ++ [call] ∧ ∀ w ∈ waits, w.2.2 = none

/-- `http_dopacket` answers the packet because of its request line. -/
def LineAnswered (hostHeader : Option (List UInt8)) (packet : List UInt8) : Prop :=
  (requestLine packet).length < httpBufSize ∧
    ∃ method tokens, strtokens [0x20] (requestLine packet) = method :: tokens ∧
      (lookupMethod method = none ∨ tokens = [] ∨ ∃ url more, tokens = url :: more ∧
        (urlOfOther hostHeader url = true ∨ checkVersionString more.head? ≠ 1))

/-- One packet has the data. Those before it have none, and none of them nor
the data itself makes the method give up too early; and where `class.htc` leaves
the client to the next packet, no method is called for that. -/
def Delivers (hostHeader : Option (List UInt8)) (func : HttpMethod) (path : List UInt8)
    (data : Option (List UInt8)) (seen packets : List LinedPacket) : Prop :=
  ∃ before p after, packets = before ++ p :: after ∧
    (∀ q ∈ before, dataOf q.2 = none ∧ ¬Ends func q.2) ∧ dataOf p.2 = data ∧
    (after = [] ∨ Ends func p.2 ∧ (TurnedDown func path (seen ++ before) p →
      ∀ q ∈ after.head?, LineAnswered hostHeader q.1.2.2)) ∧
    FormOk func path (seen ++ before) p

section Delivers

variable {hostHeader : Option (List UInt8)} {func : HttpMethod} {path : List UInt8}
  {data : Option (List UInt8)} {p : LinedPacket} {seen packets : List LinedPacket}

theorem Posts.ends {form : List UInt8} (h : Posts func seen p form) : Ends func p.2 := by
  refine .inr (.inr ?_)
  rw [h.body]
  exact h.ne_nil

theorem delivers_last (hends : ¬Ends func p.2) :
    Delivers hostHeader func path data seen [p] ↔ dataOf p.2 = data := by
  constructor
  · rintro ⟨before, q, after, heq, -, hdata, -, -⟩
    cases before with
    | nil =>
        cases heq
        exact hdata
    | cons q before => cases before <;> cases heq
  · intro hdata
    exact ⟨[], p, [], rfl, fun _ hq => absurd hq List.not_mem_nil, hdata, .inl rfl,
      fun _ hposts => absurd hposts.ends hends⟩

theorem delivers_ends (hends : Ends func p.2) :
    Delivers hostHeader func path data seen (p :: packets) ↔
      FormOk func path seen p ∧ dataOf p.2 = data ∧ (TurnedDown func path seen p →
        ∀ q ∈ packets.head?, LineAnswered hostHeader q.1.2.2) := by
  constructor
  · rintro ⟨before, q, after, heq, hbefore, hdata, hafter, hform⟩
    cases before with
    | nil =>
        obtain ⟨rfl, rfl⟩ := List.cons.inj heq
        rw [List.append_nil] at hafter hform
        refine ⟨hform, hdata, fun hturn => ?_⟩
        rcases hafter with rfl | hafter
        · exact fun _ hq => by cases hq
        · exact hafter.2 hturn
    | cons q before =>
        obtain ⟨rfl, -⟩ := List.cons.inj heq
        exact absurd hends (hbefore _ (List.mem_cons_self ..)).2
  · rintro ⟨hform, hdata, hhead⟩
    rw [← List.append_nil seen] at hform hhead
    exact ⟨[], p, packets, rfl, fun _ hq => absurd hq List.not_mem_nil, hdata,
      .inr ⟨hends, hhead⟩, hform⟩

theorem delivers_cons {q : LinedPacket} (hends : ¬Ends func p.2) :
    Delivers hostHeader func path data seen (p :: q :: packets) ↔
      dataOf p.2 = none ∧ Delivers hostHeader func path data (seen ++ [p]) (q :: packets) := by
  constructor
  · rintro ⟨before, p', after, heq, hbefore, hdata, hafter, hform⟩
    cases before with
    | nil =>
        cases heq
        rcases hafter with hafter | hafter
        · cases hafter
        · exact absurd hafter.1 hends
    | cons r before =>
        obtain ⟨rfl, htail⟩ := List.cons.inj heq
        rw [List.append_cons] at hafter hform
        exact ⟨(hbefore _ (List.mem_cons_self ..)).1, before, p', after, htail,
          fun r hr => hbefore r (List.mem_cons_of_mem _ hr), hdata, hafter, hform⟩
  · rintro ⟨hnone, before, p', after, heq, hbefore, hdata, hafter, hform⟩
    rw [← List.append_cons] at hafter hform
    exact ⟨p :: before, p', after, by rw [heq]; rfl,
      List.forall_mem_cons.mpr ⟨⟨hnone, hends⟩, hbefore⟩,
      hdata, hafter, hform⟩

end Delivers

section Run

variable {hostHeader : Option (List UInt8)} {path : List UInt8} {func : HttpMethod}
  {data : Option (List UInt8)} {c c' : HttpClient}

theorem endsWith_single {calls : List (HttpMethod × List UInt8 × Option (List UInt8))}
    {call call' : HttpMethod × List UInt8 × Option (List UInt8)} :
    EndsWith calls call (calls ++ [call']) ↔ call' = call := by
  constructor
  · rintro ⟨waits, heq, -⟩
    rw [List.append_assoc, List.append_cancel_left_eq] at heq
    have hlast := congrArg List.getLast? heq
    rw [List.getLast?_concat] at hlast
    exact Option.some.inj hlast
  · rintro rfl
    exact ⟨[], by rw [List.append_nil], fun _ hw => absurd hw List.not_mem_nil⟩

theorem endsWith_cons {calls more : List (HttpMethod × List UInt8 × Option (List UInt8))}
    {call w x : HttpMethod × List UInt8 × Option (List UInt8)} :
    EndsWith calls call (calls ++ [w] ++ x :: more) ↔
      w.2.2 = none ∧ EndsWith (calls ++ [w]) call (calls ++ [w] ++ x :: more) := by
  constructor
  · rintro ⟨waits, heq, hnone⟩
    rw [List.append_assoc, List.append_assoc, List.append_cancel_left_eq] at heq
    cases waits with
    | nil =>
        rw [List.nil_append, List.singleton_append] at heq
        cases heq
    | cons w' waits =>
        rw [List.singleton_append, List.cons_append] at heq
        obtain ⟨rfl, hmore⟩ := List.cons.inj heq
        exact ⟨hnone _ (List.mem_cons_self ..), waits, by rw [hmore, ← List.append_assoc],
          fun v hv => hnone v (List.mem_cons_of_mem _ hv)⟩
  · rintro ⟨hw, waits, heq, hnone⟩
    exact ⟨w :: waits, by rw [heq]; simp, List.forall_mem_cons.mpr ⟨hw, hnone⟩⟩

theorem calls_request (c : HttpClient) (packet : List UInt8) :
    (c.does (.request packet)).calls = c.calls := by
  rw [HttpClient.calls, HttpClient.calls, HttpClient.does, List.reverse_cons,
    List.filterMap_append]
  exact List.append_nil _

theorem calls_refuse (c : HttpClient) (sender : HttpSender) (status : Nat) :
    (c.refuse sender status).calls = c.calls := by
  have hlog : (c.refuse sender status).log = .exit :: .answer sender status :: c.log := rfl
  rw [HttpClient.calls, HttpClient.calls, hlog, List.reverse_cons, List.reverse_cons,
    List.filterMap_append, List.filterMap_append]
  simp

/-- A packet for a dead client changes nothing but its log. -/
theorem run_dead (ps : List HttpPacket) :
    ∀ {c : HttpClient}, c.Dead → ∃ c', run readStep c ps = .ok c' ∧ c'.calls = c.calls := by
  induction ps with
  | nil => exact fun _ => ⟨_, rfl, rfl⟩
  | cons p ps ih =>
      intro c hc
      obtain ⟨c', hrun, hcalls⟩ := ih (exitHttpd_dead c)
      have hexit : MethodRan c c.exitHttpd := (MethodRan.of_log rfl).exitHttpd
      have hread : readStep c p = .ok c.exitHttpd := if_pos hc
      refine ⟨c', ?_, hcalls.trans hexit.calls⟩
      rw [run_cons, hread]
      exact hrun

/-- What `parse_client_header` is given is one more call. -/
theorem parseClientHeader_more {env : HttpEnv} {stack : HttpStack} {buffer url : List UInt8}
    (h : parseClientHeader env stack buffer url func c = .ok c') :
    ∃ call, c'.calls = c.calls ++ [call] := by
  obtain ⟨⟨c₁, data⟩, hloop, h⟩ := bind_ok_iff.mp h
  have hcalls : c₁.calls = c.calls := by
    rw [parseLoop_nil] at hloop
    rw [HttpClient.calls, (lineLoop_frame _ hloop).log, HttpClient.calls]
  cases data with
  | some data => exact ⟨_, by rw [callMethod_calls h, hcalls]⟩
  | none =>
      refine ⟨(func, url, none), (callMethod_calls h).trans ?_⟩
      split
      · rw [calls_refuse, hcalls]
      · rw [hcalls]

/-- A request line is answered, or what is behind it is handed on. -/
theorem httpDopacket_line {env : HttpEnv} {stack : HttpStack} {packet : List UInt8}
    (hwait : c.httpflags &&& hflagsParseWait = 0) :
    (LineAnswered c.hostHeader packet →
        ∃ status, httpDopacket env stack packet c = .ok (c.refuse .httpDopacket status)) ∧
      (¬LineAnswered c.hostHeader packet → ∀ c', httpDopacket env stack packet c = .ok c' →
        ∃ call, c'.calls = c.calls ++ [call]) := by
  rw [httpDopacket, if_pos hwait]
  dsimp only
  split
  next hlong => exact ⟨fun h => absurd h.1 (Nat.not_lt_of_le hlong), fun _ _ hok => by cases hok⟩
  next hshort =>
    have hlen : (requestLine packet).length < httpBufSize := Nat.lt_of_not_le hshort
    cases htokens : strtokens [0x20] (requestLine packet) with
    | nil =>
        refine ⟨?_, fun _ _ hok => by cases hok⟩
        rintro ⟨-, method, tokens, heq, -⟩
        rw [htokens] at heq
        cases heq
    | cons method tokens =>
        have hanswered : LineAnswered c.hostHeader packet ↔ lookupMethod method = none ∨
            tokens = [] ∨ ∃ url more, tokens = url :: more ∧
              (urlOfOther c.hostHeader url = true ∨ checkVersionString more.head? ≠ 1) := by
          simp only [LineAnswered, hlen, true_and, htokens, List.cons.injEq, and_assoc,
            exists_and_left, exists_eq_left']
        rw [hanswered]
        dsimp only
        cases hmethod : lookupMethod method with
        | none => exact ⟨fun _ => ⟨501, rfl⟩, fun hno => absurd (.inl rfl) hno⟩
        | some func =>
            cases tokens with
            | nil => exact ⟨fun _ => ⟨400, rfl⟩, fun hno => absurd (.inr (.inl rfl)) hno⟩
            | cons url tokens =>
                simp only [reduceCtorEq, false_or, List.cons.injEq, and_assoc, exists_and_left,
                  exists_eq_left']
                by_cases hother : urlOfOther c.hostHeader url = true
                · rw [if_pos hother]
                  exact ⟨fun _ => ⟨400, rfl⟩, fun hno => absurd (.inl hother) hno⟩
                by_cases hversion : checkVersionString tokens.head? ≠ 1
                · rw [if_neg hother, if_pos hversion]
                  exact ⟨fun _ => ⟨505, rfl⟩, fun hno => absurd (.inr hversion) hno⟩
                rw [if_neg hother, if_neg hversion]
                refine ⟨fun h => absurd h (not_or.mpr ⟨hother, hversion⟩), fun _ _ hok => ?_⟩
                cases hpath : urlPath url with
                | none =>
                    rw [hpath] at hok
                    cases hok
                | some path =>
                    rw [hpath] at hok
                    exact parseClientHeader_more (c := { c with hurl := path }) hok

/-- Calls are not taken back. -/
theorem readStep_calls {p : HttpPacket} (h : readStep c p = .ok c') :
    ∃ more, c'.calls = c.calls ++ more := by
  have hexit : ∀ {c' : HttpClient}, .ok c.exitHttpd = (.ok c' : Except HttpFault HttpClient) →
      ∃ more, c'.calls = c.calls ++ more := by
    intro c' h
    cases h
    exact ⟨[], ((MethodRan.of_log rfl).exitHttpd.calls).trans (List.append_nil _).symm⟩
  rw [readStep, readHttpPacket] at h
  split at h
  · exact hexit h
  split at h
  · exact hexit h
  rw [← calls_request c p.2.2]
  by_cases hwait : (c.does (.request p.2.2)).httpflags &&& hflagsParseWait = 0
  · by_cases hline : LineAnswered (c.does (.request p.2.2)).hostHeader p.2.2
    · obtain ⟨status, href⟩ := (httpDopacket_line hwait).1 hline
      rw [href] at h
      cases h
      exact ⟨[], (calls_refuse _ _ _).trans (List.append_nil _).symm⟩
    · obtain ⟨call, hcall⟩ := (httpDopacket_line hwait).2 hline _ h
      exact ⟨_, hcall⟩
  · rw [httpDopacket, if_neg hwait] at h
    split at h
    · cases h
    · obtain ⟨call, hcall⟩ := parseClientHeader_more h
      exact ⟨_, hcall⟩

theorem run_calls (ps : List HttpPacket) (h : run readStep c ps = .ok c') :
    ∃ more, c'.calls = c.calls ++ more := by
  refine run_invariant (I := fun d => ∃ more, d.calls = c.calls ++ more)
    (fun d p d' hd hstep => ?_) ps
    ⟨[], (List.append_nil _).symm⟩ h
  obtain ⟨more, hmore⟩ := hd
  obtain ⟨more', hmore'⟩ := readStep_calls hstep
  exact ⟨more ++ more', by rw [hmore', hmore, List.append_assoc]⟩

theorem PostWaits.read {seen : List LinedPacket} (h : PostWaits hostHeader path seen c)
    {p : HttpPacket} (hp : p.2.2 ≠ []) : readStep c p =
      parseClientHeader p.1 p.2.1 p.2.2 path .post (c.does (.request p.2.2)) := by
  have halive : ¬c.flags &&& flagsDeadsocket ≠ 0 := h.alive
  rw [readStep, readHttpPacket, if_neg halive, if_neg hp, httpDopacket, HttpClient.does]
  simp only [h.wait, if_false, h.func, h.url]

/-- A client that waits for a request hears no more of a packet that is answered
for its request line, and calls a method for any other. -/
theorem Idle.run_iff (h : Idle hostHeader c) {q : HttpPacket} (hq : q.2.2 ≠ [])
    (rest : List HttpPacket) :
    (LineAnswered hostHeader q.2.2 →
        ∃ c', run readStep c (q :: rest) = .ok c' ∧ c'.calls = c.calls) ∧
      (¬LineAnswered hostHeader q.2.2 → ∀ c', run readStep c (q :: rest) = .ok c' →
        ∃ call more, c'.calls = c.calls ++ call :: more) := by
  have halive : ¬c.flags &&& flagsDeadsocket ≠ 0 := h.alive
  have hread : readStep c q = httpDopacket q.1 q.2.1 q.2.2 (c.does (.request q.2.2)) := by
    rw [readStep, readHttpPacket, if_neg halive, if_neg hq]
  have hwait : (c.does (.request q.2.2)).httpflags &&& hflagsParseWait = 0 := h.wait
  have hhost : (c.does (.request q.2.2)).hostHeader = hostHeader := h.host
  rw [← hhost, run_cons, hread]
  constructor
  · intro hline
    obtain ⟨status, href⟩ := (httpDopacket_line hwait).1 hline
    obtain ⟨c', hrun, hcalls⟩ := run_dead rest
      (exitHttpd_dead ((c.does (.request q.2.2)).answer .httpDopacket status))
    rw [href]
    exact ⟨c', hrun, hcalls.trans ((calls_refuse _ _ _).trans (calls_request c q.2.2))⟩
  · intro hline c' hok
    obtain ⟨c₁, hstep, hrun⟩ := bind_ok_iff.mp hok
    obtain ⟨call, hcall⟩ := (httpDopacket_line hwait).2 hline _ hstep
    obtain ⟨more, hmore⟩ := run_calls rest hrun
    rw [hmore, hcall, calls_request, List.append_assoc]
    exact ⟨call, more, rfl⟩

section Calls

variable {p : LinedPacket} {buffer : List UInt8} {seen : List LinedPacket} {rest : List HttpPacket}
  (hfunc : func ≠ .mna) (hslash : path.headD 0 = 0x2f)
  (hrest : ∀ q ∈ rest, q.2.2 ≠ [] ∧ ∀ line ∈ headerLines q.2.2, line.length < httpBufSize)
  (h : Ready hostHeader path seen c) (hlines : headerLines buffer = p.2)
  (hshort : ∀ line ∈ p.2, line.length < httpBufSize)

include h hlines hshort in
/-- The calls of a run begin with that of its first packet. -/
theorem parse_run_calls (hok : (parseClientHeader p.1.1 p.1.2.1 buffer path func c).bind
      (run readStep · rest) = .ok c') :
    ∃ more, c'.calls = c.calls ++ (func, path, dataOf p.2) :: more := by
  obtain ⟨c₁, hparse, hrun⟩ := bind_ok_iff.mp hok
  obtain ⟨more, hmore⟩ := run_calls rest hrun
  rw [← hlines] at hshort ⊢
  rw [hmore, parseClientHeader_one_call h.seen hshort hparse, List.append_assoc]
  exact ⟨more, rfl⟩

include hfunc hslash hrest h hlines hshort in
/-- After a packet that ends, nothing more may be called. -/
theorem ends_run_iff (hends : Ends func p.2) :
    (∃ c', (parseClientHeader p.1.1 p.1.2.1 buffer path func c).bind
          (run readStep · rest) = .ok c' ∧
        EndsWith c.calls (func, path, data) c'.calls) ↔
      FormOk func path seen p ∧ dataOf p.2 = data ∧ (TurnedDown func path seen p →
        ∀ q ∈ rest.head?, LineAnswered hostHeader q.2.2) := by
  obtain ⟨hok, hend⟩ := h.ends hslash hfunc hlines hshort hends
  have hcalls : ∀ {c₁}, parseClientHeader p.1.1 p.1.2.1 buffer path func c = .ok c₁ →
      c₁.calls = c.calls ++ [(func, path, dataOf p.2)] := by
    intro c₁ hparse
    rw [← hlines] at hshort ⊢
    exact parseClientHeader_one_call h.seen hshort hparse
  have hsame : ∀ {c₁ c₂ : HttpClient},
      parseClientHeader p.1.1 p.1.2.1 buffer path func c = .ok c₁ → c₂.calls = c₁.calls →
        (EndsWith c.calls (func, path, data) c₂.calls ↔ dataOf p.2 = data) := by
    intro c₁ c₂ hparse heq
    rw [heq, hcalls hparse, endsWith_single]
    simp
  -- a packet that is turned down has data, and so may not be followed by a call
  have hturned : TurnedDown func path seen p → ∀ {c₂ : HttpClient} {call more},
      c₂.calls = c.calls ++ [(func, path, dataOf p.2)] ++ call :: more →
        ¬EndsWith c.calls (func, path, data) c₂.calls := by
    rintro ⟨form, hposts, -⟩ c₂ call more heq hwith
    rw [heq, endsWith_cons] at hwith
    rw [hposts.body] at hwith
    cases hwith.1
  constructor
  · rintro ⟨c', hbind, hwith⟩
    obtain ⟨c₁, hparse, hrun⟩ := bind_ok_iff.mp hbind
    refine ⟨hok.mp ⟨c₁, hparse⟩, ?_⟩
    rcases hend c₁ hparse with ⟨hno, hdead⟩ | ⟨hturn, hidle⟩
    · obtain ⟨c₂, hrun₂, heq⟩ := run_dead rest hdead
      cases hrun.symm.trans hrun₂
      exact ⟨(hsame hparse heq).mp hwith, fun hturn => absurd hturn hno⟩
    · cases rest with
      | nil =>
          cases hrun
          exact ⟨(hsame hparse rfl).mp hwith, fun _ q hq => by cases hq⟩
      | cons q rest =>
          have hq := (hrest q (List.mem_cons_self ..)).1
          by_cases hline : LineAnswered hostHeader q.2.2
          · obtain ⟨c₂, hrun₂, heq⟩ := (hidle.run_iff hq rest).1 hline
            cases hrun.symm.trans hrun₂
            refine ⟨(hsame hparse heq).mp hwith, fun _ r hr => ?_⟩
            cases hr
            exact hline
          · obtain ⟨call, more, heq⟩ := (hidle.run_iff hq rest).2 hline _ hrun
            rw [hcalls hparse] at heq
            exact absurd hwith (hturned hturn heq)
  · rintro ⟨hform, hdata, hhead⟩
    obtain ⟨c₁, hparse⟩ := hok.mpr hform
    have hrun : ∃ c₂, run readStep c₁ rest = .ok c₂ ∧ c₂.calls = c₁.calls := by
      rcases hend c₁ hparse with ⟨-, hdead⟩ | ⟨hturn, hidle⟩
      · exact run_dead rest hdead
      · cases rest with
        | nil => exact ⟨c₁, rfl, rfl⟩
        | cons q rest =>
            exact (hidle.run_iff (hrest q (List.mem_cons_self ..)).1 rest).1
              (hhead hturn q rfl)
    obtain ⟨c₂, hrun, heq⟩ := hrun
    exact ⟨c₂, bind_ok_iff.mpr ⟨c₁, hparse, hrun⟩, (hsame hparse heq).mpr hdata⟩

end Calls

/-- What a run of packets calls the method with, read off their lines. -/
theorem parse_run_iff (hfunc : func ≠ .mna) (hslash : path.headD 0 = 0x2f) (rest : List HttpPacket)
    (hrest : ∀ q ∈ rest, q.2.2 ≠ [] ∧ ∀ line ∈ headerLines q.2.2, line.length < httpBufSize)
    {p : LinedPacket} {buffer : List UInt8} {seen : List LinedPacket}
    (h : Ready hostHeader path seen c) (hlines : headerLines buffer = p.2)
    (hshort : ∀ line ∈ p.2, line.length < httpBufSize) :
    (∃ c', (parseClientHeader p.1.1 p.1.2.1 buffer path func c).bind
          (run readStep · rest) = .ok c' ∧
        EndsWith c.calls (func, path, data) c'.calls) ↔
      Delivers hostHeader func path data seen (p :: rest.map fun q => (q, headerLines q.2.2)) := by
  induction rest generalizing func p buffer seen c with
  | nil =>
      by_cases hends : Ends func p.2
      · rw [ends_run_iff hfunc hslash hrest h hlines hshort hends, delivers_ends hends]
        simp
      · obtain ⟨rfl, c₁, hparse, -⟩ := h.waits hfunc hlines hshort hends
        rw [List.map_nil, delivers_last hends, hparse]
        rw [← hlines] at hshort ⊢
        have hcalls := parseClientHeader_one_call h.seen hshort hparse
        constructor
        · rintro ⟨c', hok, hwith⟩
          cases hok
          rw [hcalls, endsWith_single] at hwith
          simpa using hwith
        · intro hdata
          exact ⟨c₁, rfl, by rw [hcalls, hdata, endsWith_single]⟩
  | cons q rest ih =>
      by_cases hends : Ends func p.2
      · rw [ends_run_iff hfunc hslash hrest h hlines hshort hends, delivers_ends hends,
          List.map_cons]
        simp
      · rw [List.map_cons, delivers_cons hends]
        obtain ⟨rfl, c₁, hparse, hwait⟩ := h.waits hfunc hlines hshort hends
        obtain ⟨⟨hq, hqshort⟩, hrest⟩ := List.forall_mem_cons.mp hrest
        have hready := hwait.toReady.does (.request q.2.2)
        have hcalls : (c₁.does (.request q.2.2)).calls =
            c.calls ++ [(.post, path, dataOf p.2)] := by
          rw [← hlines] at hshort ⊢
          rw [calls_request, parseClientHeader_one_call h.seen hshort hparse]
        have hiff : (∃ c', (parseClientHeader q.1 q.2.1 q.2.2 path .post
            (c₁.does (.request q.2.2))).bind (run readStep · rest) = .ok c' ∧
              EndsWith (c₁.does (.request q.2.2)).calls (.post, path, data) c'.calls) ↔ _ :=
          ih hfunc hrest (p := (q, headerLines q.2.2)) hready rfl hqshort
        rw [← hiff, hparse]
        have hstep : (Except.ok c₁ : Except HttpFault HttpClient).bind
            (run readStep · (q :: rest)) = (parseClientHeader q.1 q.2.1 q.2.2 path .post
              (c₁.does (.request q.2.2))).bind (run readStep · rest) := by
          rw [← hwait.read hq]
          exact run_cons c₁ q rest
        rw [hstep, hcalls]
        have hmore : ∀ {c'}, (parseClientHeader q.1 q.2.1 q.2.2 path .post
            (c₁.does (.request q.2.2))).bind (run readStep · rest) = .ok c' →
            (EndsWith c.calls (.post, path, data) c'.calls ↔ dataOf p.2 = none ∧
              EndsWith (c.calls ++ [(.post, path, dataOf p.2)]) (.post, path, data) c'.calls) := by
          intro c' hok
          obtain ⟨more, hmore⟩ :=
            parse_run_calls (p := (q, headerLines q.2.2)) hready rfl hqshort hok
          rw [hcalls] at hmore
          rw [hmore, endsWith_cons]
        constructor
        · rintro ⟨c', hok, hwith⟩
          obtain ⟨hnone, hwith⟩ := (hmore hok).mp hwith
          exact ⟨hnone, c', hok, hwith⟩
        · rintro ⟨hnone, c', hok, hwith⟩
          exact ⟨c', hok, (hmore hok).mpr ⟨hnone, hwith⟩⟩

end Run

end TrIrcd
