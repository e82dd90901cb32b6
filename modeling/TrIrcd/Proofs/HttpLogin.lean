import TrIrcd.Proofs.HttpHeaders

/-!
# Who is logged in

`HFLAGS_AUTHENTICATED` is set by a logon form with the right credentials, and
by a cookie with the uuid of the client. `Entitled` says that a client did one
or the other, and `HttpSt.run_authenticated` that every client with the flag
is entitled, in every run of the server, as long as no packet does one of
three things.

It may not show the uuid of zeros before `send_http_cookie` made one: that is
what the client was made with. It may not show an `ID` that is not a uuid
while the array that `uuid_parse` leaves alone holds the uuid of the client.
And it may not post a logon form that ends in an unfinished escape, which
swallows the NUL, while the array it is decoded into holds a password.
-/

namespace TrIrcd

open Function (update)
open TrIrcd.Lib

/-! ## What entitles a client -/

def logonUrl (url : List UInt8) : Prop := url.headD 0 = 0x2f ∧ ircStrcmp url.tail logonPage = 0

/-- A form that logs in. -/
def RightForm (env : HttpEnv) (decoded : List UInt8) : Prop :=
  ∃ l user pass, logonFields decoded = .ok l ∧ l.login = 1 ∧ l.user = some user ∧
    l.pass = some pass ∧ credentialsOk env user pass = true

/-- A logon form with the right credentials was posted. -/
def LoggedOn (log : List HttpAct) : Prop :=
  ∃ env url data, HttpAct.call env .post url (some data) ∈ log ∧ logonUrl url ∧
    RightForm env (decodeInto [] data)

/-- The text of the `ID` in a cookie. -/
def idOf (value : List UInt8) : Option (List UInt8) :=
  (strstr (ascii ['I', 'D', '=']) value).map fun id => (id.drop 4).take 36

/-- The lines of a packet with a cookie, as what stands after the colon. -/
def CookieLine (packet line value : List UInt8) : Prop :=
  line ∈ headerLines packet ∧ ∃ name, headerField line = some (name, value) ∧
    ircStrcmp name (ascii ['C', 'o', 'o', 'k', 'i', 'e']) = 0

/-- A packet with this uuid in a cookie. -/
def Carries (packet : List UInt8) (u : Uuid) : Prop :=
  ∃ line value text, CookieLine packet line value ∧ idOf value = some text ∧
    uuidParse text = some u

/-- A packet carried a uuid that had been generated for the client. -/
def CookieShown (log : List HttpAct) : Prop :=
  ∃ later packet earlier u, log = later ++ .request packet :: earlier ∧ Carries packet u ∧
    .generate u ∈ earlier

def Entitled (log : List HttpAct) : Prop := LoggedOn log ∨ CookieShown log

/-- The uuid of a client was generated for it, or is the one it was made with. -/
def Issued (log : List HttpAct) (u : Uuid) : Prop :=
  .generate u ∈ log ∨ u = 0 ∧ ∀ v, .generate v ∉ log

structure LoginSound (c : HttpClient) : Prop where
  auth : c.authenticated = true → Entitled c.log
  uuid : Issued c.log c.uuid

/-! ## What a packet may not do -/

/-- What is found in memory instead of an `ID` is not the uuid of the client,
and no `ID` is the uuid of zeros before another was generated. -/
def CookieSafe (stack : HttpStack) (packet : List UInt8) (uuid : Uuid) (log : List HttpAct) :
    Prop :=
  ∀ line value n text, CookieLine packet line value →
    cookieId (stack.cookie n).1
      (value ++ List.replicate (httpBufSize - line.length) 0 ++ stack.past) = some text →
    match uuidParse text with
    | some u => (idOf value ≠ some text → u ≠ uuid) ∧ (u = 0 → ∃ v, .generate v ∈ log)
    | none => (stack.cookie n).2 ≠ uuid

/-- The method and the path a packet is for. -/
def packetTarget (packet : List UInt8) (c : HttpClient) : Option (HttpMethod × List UInt8) :=
  if c.httpflags &&& hflagsParseWait = 0 then
    match strtokens [0x20] (requestLine packet) with
    | method :: url :: _ =>
        (lookupMethod method).bind fun func => (urlPath url).map fun url => (func, url)
    | _ => none
  else c.hparsefunc.map fun func => (func, c.hurl)

/-- A logon form ends with a NUL, or what is in memory behind it does not make
it one with the right credentials. -/
def FormSafe (env : HttpEnv) (stack : HttpStack) (packet : List UInt8) (c : HttpClient) : Prop :=
  ∀ url line, packetTarget packet c = some (.post, url) → logonUrl url →
    line ∈ headerLines packet → headerField line = none →
    0 ∉ urlDecode (decodeInto [] line ++ [0]) →
    ¬ RightForm env (decodeInto stack.form (decodeInto [] line))

def LoginSafe (s : HttpSt) : HttpOp → Prop
  | .read cptr env stack packet =>
      CookieSafe stack packet (s.client cptr).uuid (s.client cptr).log ∧
        FormSafe env stack packet (s.client cptr)
  | _ => True

section Sound

variable {env : HttpEnv} {stack : HttpStack} {c c' : HttpClient} {packet url : List UInt8}
  {data : Option (List UInt8)}

theorem LoggedOn.cons {log : List HttpAct} (h : LoggedOn log) (a : HttpAct) :
    LoggedOn (a :: log) := by
  obtain ⟨env, url, data, hm, hurl, hform⟩ := h
  exact ⟨env, url, data, List.mem_cons_of_mem _ hm, hurl, hform⟩

theorem Entitled.cons {log : List HttpAct} (h : Entitled log) (a : HttpAct) :
    Entitled (a :: log) := by
  rcases h with h | ⟨later, packet, earlier, u, rfl, hu⟩
  · exact Or.inl (h.cons a)
  · exact Or.inr ⟨a :: later, packet, earlier, u, rfl, hu⟩

namespace LoginSound

/-- Nothing that the flag depends on has changed. -/
theorem congr (h : LoginSound c)
    (hauth : c'.httpflags &&& hflagsAuthenticated = c.httpflags &&& hflagsAuthenticated)
    (huuid : c'.uuid = c.uuid) (hlog : c'.log = c.log) : LoginSound c' := by
  refine ⟨fun ha => ?_, ?_⟩
  · rw [hlog]
    refine h.auth ?_
    rw [HttpClient.authenticated, ← hauth]
    exact ha
  · rw [huuid, hlog]
    exact h.uuid

theorem does (h : LoginSound c) {a : HttpAct} (ha : ∀ v, a ≠ .generate v) :
    LoginSound (c.does a) := by
  refine ⟨fun hc => (h.auth hc).cons a, ?_⟩
  rcases h.uuid with hu | ⟨hu, hn⟩
  · exact Or.inl (List.mem_cons_of_mem _ hu)
  · refine Or.inr ⟨hu, fun v hv => ?_⟩
    rcases List.mem_cons.mp hv with hv | hv
    · exact ha v hv.symm
    · exact hn v hv

theorem answer (h : LoginSound c) (sender : HttpSender) (status : Nat) :
    LoginSound (c.answer sender status) := h.does fun _ => HttpAct.noConfusion

theorem exitHttpd (h : LoginSound c) : LoginSound c.exitHttpd :=
  (h.does (a := .exit) fun _ => HttpAct.noConfusion).congr rfl rfl rfl

theorem refuse (h : LoginSound c) (sender : HttpSender) (status : Nat) :
    LoginSound (c.refuse sender status) := (h.answer sender status).exitHttpd

/-- The flag is set for a client that is entitled to it. -/
theorem authenticate (h : LoginSound c) (he : Entitled c.log) (huuid : c'.uuid = c.uuid)
    (hlog : c'.log = c.log) : LoginSound c' :=
  ⟨fun _ => hlog ▸ he, by rw [huuid, hlog]; exact h.uuid⟩

end LoginSound

theorem makeHttpClient_loginSound (hostHeader : Option (List UInt8)) :
    LoginSound (makeHttpClient hostHeader) := by
  have hno : (makeHttpClient hostHeader).authenticated = false := by
    simp only [HttpClient.authenticated, makeHttpClient, UInt32.zero_and]
    decide
  exact ⟨fun h => absurd (hno.symm.trans h) Bool.false_ne_true, Or.inr ⟨rfl, fun _ h => by cases h⟩⟩

theorem finalizeHttpClient_loginSound (h : LoginSound c) : LoginSound (finalizeHttpClient c) := by
  refine h.congr ?_ rfl rfl
  have h1 : hflagsEmptyHost &&& hflagsAuthenticated = 0 := by decide
  have h2 : hflagsCookieNone &&& hflagsAuthenticated = 0 := by decide
  simp only [finalizeHttpClient, or_and_word, h1, h2, UInt32.or_zero]

/-! ## The methods -/

theorem httpGet_loginSound (env : HttpEnv) (url : List UInt8) (state : Option (List UInt8))
    (h : LoginSound c) : LoginSound (httpGet env url state c) := by
  have hpage : ∀ {d : HttpClient}, LoginSound d → LoginSound (d.does (.page url)).exitHttpd :=
    fun hd => (hd.does fun _ => HttpAct.noConfusion).exitHttpd
  have hserve : LoginSound
      (((if state.isNone then c.answer .httpGet 200 else c).does (.page url)).exitHttpd) := by
    refine hpage ?_
    split
    · exact h.answer .httpGet 200
    · exact h
  simp only [httpGet]
  split
  · exact h.refuse .httpGet 417
  split
  case isFalse => exact h
  split
  · exact hserve
  split
  · exact hserve
  split
  · split
    · exact hserve
    · exact h.refuse .httpGet 403
  split
  · exact hpage h
  · exact h.refuse .httpGet 404

theorem sendHttpCookie_loginSound (stack : HttpStack) (h : LoginSound c) :
    LoginSound (sendHttpCookie stack c) := by
  have hclear : ∀ {d : HttpClient}, LoginSound d →
      LoginSound { d with httpflags := d.httpflags &&& ~~~hflagsCookieNone } :=
    fun hd => hd.congr (and_not_and_word (by decide) _) rfl rfl
  simp only [sendHttpCookie]
  refine hclear (LoginSound.answer ?_ .sendHttpCookie 201)
  split
  · exact ⟨fun ha => (h.auth ha).cons _, Or.inl List.mem_cons_self⟩
  · exact h

theorem httpLogon_loginSound {l : Logon} (h : LoginSound c)
    (hright : ∀ user pass, l.login = 1 → l.user = some user → l.pass = some pass →
      credentialsOk env user pass = true → LoggedOn c.log) :
    LoginSound (httpLogon env stack l c) := by
  simp only [httpLogon]
  split
  · next hlogin =>
      split
      · next user pass huser hpass =>
          split
          · next hok =>
              have hauth : LoginSound { c with httpflags := c.httpflags ||| hflagsAuthenticated } :=
                h.authenticate (Or.inl (hright user pass hlogin huser hpass hok)) rfl rfl
              exact httpGet_loginSound env _ _ (sendHttpCookie_loginSound stack hauth)
          · exact h.refuse .httpPost 403
      · exact h.refuse .httpPost 403
  split
  · exact httpGet_loginSound env _ _ (h.answer .httpPost 201)
  · exact h.refuse .httpPost 500

theorem httpConfigure_loginSound {decoded : List UInt8} (h : LoginSound c)
    (hc : httpConfigure env url decoded c = .ok c') : LoginSound c' := by
  rw [httpConfigure] at hc
  split at hc
  · obtain ⟨fields, -, hc⟩ := bind_ok_iff.mp hc
    obtain ⟨_, -, rfl⟩ := map_ok_iff.mp hc
    split
    · exact h
    · have hconfigure : ∀ page form v, HttpAct.configure page form ≠ .generate v :=
        fun _ _ _ => HttpAct.noConfusion
      exact (h.does (hconfigure _ _)).exitHttpd
  · cases hc
    exact h.refuse .httpPost 403

theorem httpPost_loginSound (h : LoginSound c)
    (hform : ∀ d, data = some d → logonUrl url → RightForm env (decodeInto stack.form d) →
      LoggedOn c.log)
    (hc : httpPost env stack url data c = .ok c') : LoginSound c' := by
  have hclear : c.httpflags &&& ~~~hflagsParseWait &&& hflagsAuthenticated =
      c.httpflags &&& hflagsAuthenticated := and_not_and_word (by decide) _
  have hset : (c.httpflags ||| hflagsParseWait) &&& hflagsAuthenticated =
      c.httpflags &&& hflagsAuthenticated := by
    rw [or_and_word, show hflagsParseWait &&& hflagsAuthenticated = 0 by decide, UInt32.or_zero]
  have hwaited : LoginSound { c with httpflags := c.httpflags &&& ~~~hflagsParseWait } :=
    h.congr hclear rfl rfl
  have hmna : LoginSound { c with
      httpflags := c.httpflags &&& ~~~hflagsParseWait
      lenToParse := 0
      hparsefunc := some .mna } := h.congr hclear rfl rfl
  simp only [httpPost] at hc
  split at hc
  · cases hc
    exact h.refuse .httpPost 417
  split at hc
  · cases hc
    exact h.congr hset rfl rfl
  next hne =>
  split at hc
  · cases hc
    exact hwaited.refuse .httpPost 411
  split at hc
  case isFalse =>
    cases hc
    exact hmna
  next hslash =>
    split at hc
    · next hlogon =>
        obtain ⟨l, hl, rfl⟩ := map_ok_iff.mp hc
        cases data with
        | none => exact absurd rfl hne
        | some d =>
            refine httpLogon_loginSound hmna fun user pass hlogin huser hpass hok => ?_
            exact hform d rfl ⟨hslash, hlogon⟩ ⟨l, user, pass, hl, hlogin, huser, hpass, hok⟩
    split at hc
    · exact httpConfigure_loginSound hmna hc
    · cases hc
      exact hmna.refuse .httpPost 404

/-- A form whose end was decoded is read from the form alone. -/
theorem decodeInto_of_mem {form data : List UInt8} (h : 0 ∈ urlDecode (data ++ [0])) :
    decodeInto form data = decodeInto [] data := by
  have hcstr : ∀ {w : List UInt8}, 0 ∈ w → ∀ t, cstr (w ++ t) = cstr w := by
    intro w hw t
    induction w with
    | nil => cases hw
    | cons b w ih =>
        by_cases hb : b = 0
        · rw [hb, List.cons_append, cstr_cons_zero, cstr_cons_zero]
        · rw [List.cons_append, cstr_cons_of_ne hb, cstr_cons_of_ne hb,
            ih ((List.mem_cons.mp hw).resolve_left (Ne.symm hb))]
  rw [decodeInto, decodeInto, blit, blit, List.take_zero, List.take_nil, List.nil_append,
    hcstr h, hcstr h]

theorem callMethod_loginSound {func : HttpMethod} (h : LoginSound c)
    (hform : func = .post → ∀ d, data = some d → logonUrl url → 0 ∉ urlDecode (d ++ [0]) →
      ¬ RightForm env (decodeInto stack.form d))
    (hc : callMethod env stack func url data c = .ok c') : LoginSound c' := by
  have hcall : LoginSound (c.does (.call env func url data)) := h.does fun _ => HttpAct.noConfusion
  cases func with
  | get =>
      cases hc
      exact httpGet_loginSound env url data hcall
  | mna =>
      cases hc
      exact hcall.answer .httpMna 405
  | post =>
      refine httpPost_loginSound hcall (fun d hd hurl hr => ?_) hc
      subst hd
      by_cases h0 : 0 ∈ urlDecode (d ++ [0])
      · exact ⟨env, url, d, List.mem_cons_self, hurl, (decodeInto_of_mem h0) ▸ hr⟩
      · exact absurd hr (hform rfl d rfl hurl h0)

/-! ## The headers -/

theorem lookupHeader_cookie {name : List UInt8} (h : lookupHeader name = some .cookie) :
    ircStrcmp name (ascii ['C', 'o', 'o', 'k', 'i', 'e']) = 0 := by
  obtain ⟨m, hm, hc⟩ := Option.map_eq_some_iff.mp h
  have hname : ircStrcmp name m.1 = 0 := by simpa using List.find?_some hm
  have hmem := List.mem_of_find?_eq_some hm
  simp only [headerMessages, List.mem_cons, List.not_mem_nil, or_false] at hmem
  rcases hmem with rfl | rfl | rfl | rfl | rfl
  · cases hc
  · cases hc
  · exact hname
  · cases hc
  · cases hc

/-- A cookie that is compared equal carries the uuid, and it was generated. -/
theorem httpCookie_loginSound {line value : List UInt8} {log : List HttpAct} {n : Nat}
    (h : LoginSound c) (hlog : c.log = .request packet :: log) (hl : CookieLine packet line value)
    (hs : CookieSafe stack packet c.uuid log) :
    LoginSound (httpCookie (stack.cookie n)
      (value ++ List.replicate (httpBufSize - line.length) 0 ++ stack.past) c) := by
  rw [httpCookie]
  cases hid : cookieId (stack.cookie n).1
      (value ++ List.replicate (httpBufSize - line.length) 0 ++ stack.past) with
  | none =>
      refine h.congr ?_ rfl rfl
      rw [and_not_and_word (by decide), or_and_word,
        show hflagsCookieNone &&& hflagsAuthenticated = 0 by decide, UInt32.or_zero]
  | some text =>
      dsimp only
      split
      case isFalse => exact h
      next heq =>
        have hsafe := hs line value n text hl hid
        refine h.authenticate (Or.inr ?_) rfl rfl
        cases hu : uuidParse text with
        | none =>
            rw [hu] at hsafe heq
            exact absurd heq hsafe
        | some u =>
            rw [hu] at hsafe heq
            have huu : u = c.uuid := heq
            have hcar : Carries packet u := by
              refine ⟨line, value, text, hl, ?_, hu⟩
              by_contra hne
              exact hsafe.1 hne huu
            refine ⟨[], packet, log, u, hlog, hcar, ?_⟩
            rcases h.uuid with hg | ⟨h0, hn⟩
            · rw [hlog, ← huu] at hg
              exact (List.mem_cons.mp hg).resolve_left HttpAct.noConfusion
            · obtain ⟨v, hv⟩ := hsafe.2 (huu.trans h0)
              exact absurd (hlog ▸ List.mem_cons_of_mem _ hv) (hn v)

/-- The other headers leave the flag alone. -/
theorem HttpHeader.func_loginSound {hd : HttpHeader} (hne : hd ≠ .cookie) {slot : UInt8 × Uuid}
    {string : List UInt8} (h : LoginSound c) : LoginSound (hd.func env slot string c) := by
  cases hd with
  | acceptEncoding =>
      simp only [HttpHeader.func, httpAcceptEncoding]
      split
      · refine h.congr ?_ rfl rfl
        rw [or_and_word, show hflagsGzip &&& hflagsAuthenticated = 0 by decide, UInt32.or_zero]
      · exact h
  | contentLength => exact h.congr rfl rfl rfl
  | cookie => exact absurd rfl hne
  | expect =>
      refine h.congr ?_ rfl rfl
      rw [HttpHeader.func, httpExpect, or_and_word,
        show hflagsExpectationFailed &&& hflagsAuthenticated = 0 by decide, UInt32.or_zero]
  | host =>
      simp only [HttpHeader.func, httpHostHeader]
      split
      · exact h.congr rfl rfl rfl
      · split
        · exact h.congr rfl rfl rfl
        · exact h

theorem lineLoop_loginSound {log : List HttpAct} (lines : List (List UInt8)) :
    ∀ {n : Nat} {c c' : HttpClient} {data : Option (List UInt8)}, LoginSound c →
      (∀ line ∈ lines, line ∈ headerLines packet) → c.log = .request packet :: log →
      CookieSafe stack packet c.uuid log → lineLoop env stack lines n c = .ok (c', data) →
      LoginSound c' := by
  induction lines with
  | nil =>
      intro n c c' data h _ _ _ hl
      cases hl
      exact h
  | cons line lines ih =>
      intro n c c' data h hlines hlog hs hl
      rw [lineLoop] at hl
      split at hl
      · cases hl
      cases hf : headerField line with
      | none =>
          rw [hf] at hl
          cases hl
          exact h
      | some f =>
          obtain ⟨name, value⟩ := f
          rw [hf] at hl
          have hframe := runHeader_frame env stack n line name value c
          have hrun : LoginSound (runHeader env stack n line name value c) := by
            rw [runHeader]
            cases hh : lookupHeader name with
            | none => exact h
            | some hd =>
                by_cases hd' : hd = .cookie
                · subst hd'
                  have hcookie : CookieLine packet line value :=
                    ⟨hlines line List.mem_cons_self, name, hf, lookupHeader_cookie hh⟩
                  exact httpCookie_loginSound h hlog hcookie hs
                · exact HttpHeader.func_loginSound hd' h
          exact ih hrun (fun l hm => hlines l (List.mem_cons_of_mem _ hm)) (hframe.log.trans hlog)
            (hframe.uuid.symm ▸ hs) hl

/-- What is posted is the first line without a colon. -/
theorem lineLoop_data (lines : List (List UInt8)) :
    ∀ {n : Nat} {c c' : HttpClient} {data : List UInt8},
      lineLoop env stack lines n c = .ok (c', some data) →
      ∃ line ∈ lines, headerField line = none ∧ data = decodeInto [] line := by
  induction lines with
  | nil =>
      intro n c c' data hl
      cases hl
  | cons line lines ih =>
      intro n c c' data hl
      rw [lineLoop] at hl
      split at hl
      · cases hl
      cases hf : headerField line with
      | none =>
          rw [hf] at hl
          cases hl
          exact ⟨line, List.mem_cons_self, hf, rfl⟩
      | some f =>
          rw [hf] at hl
          obtain ⟨l, hm, hl'⟩ := ih hl
          exact ⟨l, List.mem_cons_of_mem _ hm, hl'⟩

/-! ## A packet -/

theorem parseClientHeader_loginSound {buffer : List UInt8} {func : HttpMethod}
    {log : List HttpAct} (h : LoginSound c) (hlog : c.log = .request packet :: log)
    (hbuf : ∀ line ∈ headerLines buffer, line ∈ headerLines packet)
    (hcookie : CookieSafe stack packet c.uuid log)
    (hform : ∀ line, func = .post → logonUrl url → line ∈ headerLines packet →
      headerField line = none → 0 ∉ urlDecode (decodeInto [] line ++ [0]) →
      ¬ RightForm env (decodeInto stack.form (decodeInto [] line)))
    (hc : parseClientHeader env stack buffer url func c = .ok c') : LoginSound c' := by
  obtain ⟨⟨c₁, data⟩, hloop, hcall⟩ := bind_ok_iff.mp hc
  rw [parseLoop_nil] at hloop
  have h₁ : LoginSound c₁ := lineLoop_loginSound _ h hbuf hlog hcookie hloop
  cases data with
  | none =>
      refine callMethod_loginSound ?_ (fun _ d hd => by cases hd) hcall
      split
      · exact h₁.refuse .parseClientHeader 400
      · exact h₁
  | some data =>
      obtain ⟨line, hl, hf, rfl⟩ := lineLoop_data _ hloop
      refine callMethod_loginSound h₁ (fun hp d hd hurl h0 => ?_) hcall
      cases hd
      exact hform line hp hurl (hbuf line hl) hf h0

theorem httpDopacket_loginSound {log : List HttpAct} (h : LoginSound c)
    (hlog : c.log = .request packet :: log) (hcookie : CookieSafe stack packet c.uuid log)
    (hform : FormSafe env stack packet c) (hc : httpDopacket env stack packet c = .ok c') :
    LoginSound c' := by
  rw [httpDopacket] at hc
  split at hc
  · next hwait =>
      dsimp only at hc
      split at hc
      · cases hc
      split at hc
      · cases hc
      next method tokens htok =>
      split at hc
      · cases hc
        exact h.refuse .httpDopacket 501
      next func hfunc =>
      split at hc
      · cases hc
        exact h.refuse .httpDopacket 400
      next url tokens =>
      split at hc
      · cases hc
        exact h.refuse .httpDopacket 400
      split at hc
      · cases hc
        exact h.refuse .httpDopacket 505
      split at hc
      · cases hc
      next path hpath =>
        have htarget : packetTarget packet c = some (func, path) := by
          rw [packetTarget, if_pos hwait, htok]
          simp only [hfunc, hpath, Option.bind_some, Option.map_some]
        have hpathed : LoginSound { c with hurl := path } := h.congr rfl rfl rfl
        refine parseClientHeader_loginSound hpathed hlog (fun line hl => headerLines_drop hl)
          hcookie (fun line hp hurl => ?_) hc
        exact hform path line (hp ▸ htarget) hurl
  · next hwait =>
      split at hc
      · cases hc
      next func hfunc =>
        have htarget : packetTarget packet c = some (func, c.hurl) := by
          rw [packetTarget, if_neg hwait, hfunc]
          rfl
        refine parseClientHeader_loginSound h hlog (fun _ hl => hl) hcookie
          (fun line hp hurl => ?_) hc
        exact hform c.hurl line (hp ▸ htarget) hurl

end Sound

/-! ## Runs -/

namespace HttpSt

theorem step_loginSound {A : Allocator} {s : HttpSt} {op : HttpOp} {s' : HttpSt}
    (h : ∀ c, LoginSound (s.client c)) (hsafe : LoginSafe s op) (hstep : step A s op = .ok s') :
    ∀ c, LoginSound (s'.client c) := by
  have hupdate : ∀ {c : Nat} {d : HttpClient}, LoginSound d →
      ∀ e, LoginSound (update s.client c d e) := by
    intro c d hd e
    by_cases he : e = c
    · rw [he, Function.update_self]
      exact hd
    · rw [Function.update_of_ne he]
      exact h e
  cases op with
  | accept hostHeader =>
      cases hstep
      exact hupdate (finalizeHttpClient_loginSound (makeHttpClient_loginSound hostHeader))
  | regain cptr hostHeader =>
      rw [step] at hstep
      split at hstep
      · cases hstep
        exact hupdate (finalizeHttpClient_loginSound ((h cptr).congr rfl rfl rfl))
      · cases hstep
  | free cptr =>
      cases hstep
      exact h
  | read cptr env stack packet =>
      rw [step] at hstep
      split at hstep
      · obtain ⟨d, hd, rfl⟩ := map_ok_iff.mp hstep
        refine hupdate ?_
        rw [readHttpPacket] at hd
        split at hd
        · cases hd
          exact (h cptr).exitHttpd
        split at hd
        · cases hd
          exact (h cptr).exitHttpd
        · have hread : LoginSound ((s.client cptr).does (.request packet)) :=
            (h cptr).does fun _ => HttpAct.noConfusion
          exact httpDopacket_loginSound hread rfl hsafe.1 hsafe.2 hd
      · cases hstep

/-- Whoever has the flag is entitled to it, in every run whose packets are
safe. -/
theorem run_authenticated (A : Allocator) (ops : List HttpOp)
    (hsafe : Meets (step A) LoginSafe init ops) {s : HttpSt} (hrun : run (step A) init ops = .ok s)
    (c : Nat) (hc : (s.client c).authenticated = true) : Entitled (s.client c).log :=
  (run_invariant_of_meets (I := fun s => ∀ c, LoginSound (s.client c))
    (fun _ _ _ h hG hs => step_loginSound h hG hs) ops
    (fun _ => makeHttpClient_loginSound none) hsafe hrun c).auth hc

/-- The logon form, with the password `pw`. -/
def loginRequest : List UInt8 :=
  ascii ['P', 'O', 'S', 'T', ' ', '/', 'l', 'o', 'g', 'o', 'n', '.', 'h', 't', 'i', ' ',
    'H', 'T', 'T', 'P', '/', '1', '.', '1', '\r', '\n',
    'C', 'o', 'n', 't', 'e', 'n', 't', '-', 'L', 'e', 'n', 'g', 't', 'h', ':', ' ', '2', '9',
    '\r', '\n', '\r', '\n',
    'c', 'o', 'm', 'm', '=', 'L', 'o', 'g', 'i', 'n', '&', 'u', 's', 'e', 'r', '=',
    'a', 'd', 'm', 'i', 'n', '&', 'p', 'a', 's', 's', '=', 'p', 'w']

def loginRun : List HttpOp :=
  [.accept none,
    .read 1 { emptyServer with webconfig := true, webconfigpass := ascii ['p', 'w'] } zeroStack
      loginRequest]

theorem run_authenticated_login :
    ∃ s, run (step Allocator.bump) init loginRun = .ok s ∧ (s.client 1).authenticated = true ∧
      Entitled (s.client 1).log := by
  have hlines : headerLines loginRequest =
      [loginRequest.take 24, (loginRequest.drop 26).take 18, loginRequest.drop 48] := by decide
  have hsafe : Meets (step Allocator.bump) LoginSafe init loginRun := by
    refine ⟨trivial, fun s hs =>
      ⟨⟨fun line value n text hl _ => ?_, fun url line _ _ hl hf h0 => ?_⟩,
      fun _ _ => trivial⟩⟩
    · obtain ⟨hm, name, hf, hname⟩ := hl
      rw [hlines] at hm
      simp only [List.mem_cons, List.not_mem_nil, or_false] at hm
      rcases hm with rfl | rfl | rfl
      · cases hf
      · cases hf
        exact absurd hname (by decide)
      · cases hf
    · rw [hlines] at hl
      simp only [List.mem_cons, List.not_mem_nil, or_false] at hl
      rcases hl with rfl | rfl | rfl
      · exact absurd (by decide) h0
      · cases hf
      · exact absurd (by decide) h0
  have h : Answers (fun s => (s.client 1).authenticated = true) (fun _ => False)
      (run (step Allocator.bump) init loginRun) := by decide
  cases hr : run (step Allocator.bump) init loginRun with
  | error e =>
      rw [hr] at h
      exact h.elim
  | ok s =>
      rw [hr] at h
      exact ⟨s, rfl, h, run_authenticated Allocator.bump loginRun hsafe hr 1 h⟩

/-- A cookie with the uuid of zeros. -/
def zeroCookie : List UInt8 :=
  ascii (['G', 'E', 'T', ' ', '/', ' ', 'H', 'T', 'T', 'P', '/', '1', '.', '1', '\r', '\n',
    'C', 'o', 'o', 'k', 'i', 'e', ':', ' ', 'I', 'D', '=', '"'] ++ List.replicate 8 '0' ++ ['-'] ++
    List.replicate 4 '0' ++ ['-'] ++ List.replicate 4 '0' ++ ['-'] ++ List.replicate 4 '0' ++ ['-'] ++
    List.replicate 12 '0' ++ ['"', '\r', '\n', '\r', '\n'])

/-- It logs in a client that never did anything else. -/
theorem zeroCookie_authenticated :
    ∃ s, run (step Allocator.bump) init
        [.accept none, .read 1 emptyServer zeroStack zeroCookie] = .ok s ∧
      (s.client 1).authenticated = true ∧ ¬ Entitled (s.client 1).log := by
  refine ⟨_, rfl, by decide, fun h => ?_⟩
  have hnone : ∀ {log : List HttpAct}, log = [.exit, .page (ascii ['/']), .answer .httpGet 200,
      .call emptyServer .get (ascii ['/']) none, .request zeroCookie] → ¬ Entitled log := by
    intro log hlog he
    rcases he with ⟨env, url, data, hm, -, -⟩ | ⟨later, packet, earlier, u, hl, -, hg⟩
    · rw [hlog] at hm
      simp at hm
    · have hm : HttpAct.generate u ∈ log := by
        rw [hl]
        exact List.mem_append_right _ (List.mem_cons_of_mem _ hg)
      rw [hlog] at hm
      simp at hm
  exact hnone rfl h

end HttpSt

end TrIrcd
