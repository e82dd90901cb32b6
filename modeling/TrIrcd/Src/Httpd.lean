import TrIrcd.Lib.Alloc
import TrIrcd.Lib.Lines
import TrIrcd.Lib.Run
import TrIrcd.Src.Match

/-!
# `src/httpd`: the web server

A client of the web server has two words of flags, `flags` and `httpflags`,
whose values overlap. A packet goes through `httpDopacket`, which looks at the
request line, and `parseClientHeader`, which cuts the rest into lines, runs a
function for each header it knows, and calls the method with the first line
that has no colon, or without data at the end.

`log` is what a client saw and what was done for it, the latest first: the
packets read, the answers sent and by whom, the calls of a method, the pages
served, the uuids generated. Sockets, and what the pages say, are not here.

Memory that is read before it is written is an argument: `Stack` holds what
`http_cookie` and `http_post` find in their local arrays. The NUL that
`http_cookie` writes one byte past its array is taken to hit padding. Lines of
`HTTPBUFSIZE` bytes, for which the line buffers are too short, are an
`overflow`.
-/

namespace TrIrcd

open Function (update)
open TrIrcd.Lib

/-- The bytes of a text. -/
def ascii (cs : List Char) : List UInt8 := cs.map fun c => UInt8.ofNat c.toNat

/-- `HTTPBUFSIZE` -/
def httpBufSize : Nat := 1024

/-- `HTTPREADBUFSIZE` -/
def httpReadBufSize : Nat := 8192

/-! ## Flags: `http.h`, `capabflag.h` -/

def hflagsGzip : UInt32 := 0x002
def hflagsExpectationFailed : UInt32 := 0x004
def hflagsAuthenticated : UInt32 := 0x008
def hflagsParseWait : UInt32 := 0x010
def hflagsEmptyHost : UInt32 := 0x020
def hflagsCookieRead : UInt32 := 0x040
def hflagsCookieNone : UInt32 := 0x080

def flagsDeadsocket : UInt32 := 0x000002
def flagsClosing : UInt32 := 0x000008
def flagsHttpclient : UInt32 := 0x000800
def flagsExited : UInt32 := 0x080000

/-! ## The client -/

/-- `uuid_t` -/
abbrev Uuid := BitVec 128

/-- The functions of `httpd_methods`. -/
inductive HttpMethod
  | get | post | mna
deriving DecidableEq

/-- Who calls `send_http_header`. -/
inductive HttpSender
  | httpDopacket | parseClientHeader | httpGet | httpPost | httpMna | sendHttpCookie
deriving DecidableEq

inductive HttpFault
  | overflow
  | nullPointer
  | notCalled
deriving DecidableEq

/-- A field of a form: its name and its value. -/
abbrev FormField := List UInt8 × List UInt8

/-- What the functions read besides the client: `GeneralOpts`, `HttpdConf`,
the operators with whether they may log in here, `calcpass` and `match`; and how
a page of the configuration ends that is given these fields, since what it does
with them depends on the listeners, blocks and classes there are. -/
structure HttpEnv where
  webconfig : Bool
  webconfigpass : List UInt8
  indexFile : List UInt8
  indexFileLen : Int
  requireIndex : Bool
  findOperator : List UInt8 → Option (List UInt8 × Bool)
  calcpass : List UInt8 → List UInt8
  matchMask : List UInt8 → List UInt8 → Bool
  commit : List UInt8 → List FormField → Except HttpFault Unit

/-- Memory a packet finds: for each header line the byte after the text of a
cookie and the uuid, what lies behind the line buffer, and the array a form is
decoded into; and the uuid generated next. -/
structure HttpStack where
  cookie : Nat → UInt8 × Uuid
  past : List UInt8
  form : List UInt8
  newUuid : Uuid

inductive HttpAct
  | request (packet : List UInt8)
  | call (env : HttpEnv) (method : HttpMethod) (url : List UInt8) (data : Option (List UInt8))
  | answer (sender : HttpSender) (status : Nat)
  | page (url : List UInt8)
  | configure (url data : List UInt8)
  | generate (uuid : Uuid)
  | exit

/-- `struct Client`, as far as the web server uses it; `hostHeader` is
`listener->host_header`. -/
structure HttpClient where
  flags : UInt32
  httpflags : UInt32
  uuid : Uuid
  lenToParse : Int
  hurl : List UInt8
  hparsefunc : Option HttpMethod
  hostHeader : Option (List UInt8)
  log : List HttpAct

/-! ## C library, `support.c` and `lib/uuid` -/

/-- The tokens that calls of `strtoken` return. -/
def strtokens (fs : List UInt8) (str : List UInt8) : List (List UInt8) :=
  pieces (fun c => c ∈ fs) (cstr str)

/-- What stands before and after the byte that `strchr` finds. -/
def cutAt (c : UInt8) (s : List UInt8) : Option (List UInt8 × List UInt8) :=
  if c ∈ s then some (s.takeWhile (· ≠ c), (s.dropWhile (· ≠ c)).tail) else none

/-- `strstr`, for a needle that is not empty. -/
def strstr (needle : List UInt8) : List UInt8 → Option (List UInt8)
  | [] => none
  | c :: s =>
      if needle.isPrefixOf (c :: s) then some (c :: s)
      else if c = 0 then none else strstr needle s

/-- `strtol` to base 10; a `long` has 64 bits. -/
def strtol (s : List UInt8) : Int :=
  let s := s.dropWhile isSpace
  let digits := if s.headD 0 = 0x2d || s.headD 0 = 0x2b then s.tail else s
  let n : Int := (digits.takeWhile isDigit).foldl (fun n c => n * 10 + (c.toNat - 0x30)) (0 : Int)
  if s.headD 0 = 0x2d then max (-n) (-0x8000000000000000) else min n 0x7fffffffffffffff

/-- `atoi` -/
def atoi (s : List UInt8) : Int := (strtol s).bmod 0x100000000

/-- `IsXDigit` -/
def isXDigit (c : UInt8) : Bool :=
  isDigit c || (0x61 ≤ c && c ≤ 0x66) || (0x41 ≤ c && c ≤ 0x46)

/-- `hex_to_int` -/
def hexToInt (c : UInt8) : Nat :=
  let c := if 0x41 ≤ c && c ≤ 0x5a then c + 0x20 else c
  if isDigit c then c.toNat - 0x30 else c.toNat - 0x61 + 10

/-- `strtoul` to base 16, of digits. -/
def strtoul16 (s : List UInt8) : Nat :=
  min ((s.takeWhile isXDigit).foldl (fun n c => n * 16 + hexToInt c) 0) 0xffffffffffffffff

/-- `uuid_parse`: the value written, if one is. -/
def uuidParse (text : List UInt8) : Option Uuid :=
  if text.length = 36 ∧
      text.zipIdx.all fun p => isXDigit p.1 || (p.1 = 0x2d && p.2 ∈ [8, 13, 18, 23]) then
    some (BitVec.ofNat 32 (strtoul16 text) ++ BitVec.ofNat 16 (strtoul16 (text.drop 9)) ++
      BitVec.ofNat 16 (strtoul16 (text.drop 14)) ++ BitVec.ofNat 16 (strtoul16 (text.drop 19)) ++
      BitVec.ofNat 8 (strtoul16 ((text.drop 24).take 2)) ++
      BitVec.ofNat 8 (strtoul16 ((text.drop 26).take 2)) ++
      BitVec.ofNat 8 (strtoul16 ((text.drop 28).take 2)) ++
      BitVec.ofNat 8 (strtoul16 ((text.drop 30).take 2)) ++
      BitVec.ofNat 8 (strtoul16 ((text.drop 32).take 2)) ++
      BitVec.ofNat 8 (strtoul16 ((text.drop 34).take 2)))
  else none

/-- What `url_decode` writes, for `il + 1` bytes of `inchr`. An unfinished
escape swallows the byte that ends it. -/
def urlDecode : List UInt8 → List UInt8
  | [] => []
  | c :: s =>
      if c = 0x2b then 0x20 :: urlDecode s
      else if c = 0x25 then
        match s with
        | [] => []
        | x :: s =>
            if isXDigit x then
              match s with
              | [] => []
              | y :: s =>
                  if isXDigit y then UInt8.ofNat (hexToInt x * 16 + hexToInt y) :: urlDecode s
                  else urlDecode s
            else urlDecode s
      else c :: urlDecode s

/-- The string in an array after `url_decode` of a string into it. -/
def decodeInto (outchr data : List UInt8) : List UInt8 :=
  cstr (blit outchr 0 (urlDecode (data ++ [0])))

namespace HttpClient

def does (a : HttpAct) (c : HttpClient) : HttpClient := { c with log := a :: c.log }

/-- `send_http_header` -/
def answer (sender : HttpSender) (status : Nat) (c : HttpClient) : HttpClient :=
  c.does (.answer sender status)

/-- `exit_httpd_client` -/
def exitHttpd (c : HttpClient) : HttpClient :=
  { c with flags := c.flags ||| flagsDeadsocket ||| flagsClosing ||| flagsExited }.does .exit

/-- `send_http_header` and `exit_httpd_client`. -/
def refuse (sender : HttpSender) (status : Nat) (c : HttpClient) : HttpClient :=
  (c.answer sender status).exitHttpd

def authenticated (c : HttpClient) : Bool := c.httpflags &&& hflagsAuthenticated ≠ 0

def expectationFailed (c : HttpClient) : Bool := c.httpflags &&& hflagsExpectationFailed ≠ 0

end HttpClient

/-! ## `httpd_headers.c`: the headers -/

/-- The headers of `header_messages` with `parse == 1`. -/
inductive HttpHeader
  | acceptEncoding | contentLength | cookie | expect | host

def headerMessages : List (List UInt8 × HttpHeader) :=
  [(ascii ['A', 'c', 'c', 'e', 'p', 't', '-', 'E', 'n', 'c', 'o', 'd', 'i', 'n', 'g'],
      .acceptEncoding),
    (ascii ['C', 'o', 'n', 't', 'e', 'n', 't', '-', 'L', 'e', 'n', 'g', 't', 'h'],
      .contentLength),
    (ascii ['C', 'o', 'o', 'k', 'i', 'e'], .cookie),
    (ascii ['E', 'x', 'p', 'e', 'c', 't'], .expect),
    (ascii ['H', 'o', 's', 't'], .host)]

/-- `http_accept_encoding` -/
def httpAcceptEncoding (env : HttpEnv) (string : List UInt8) (cptr : HttpClient) : HttpClient :=
  if env.matchMask (ascii ['*', 'g', 'z', 'i', 'p', '*']) string then
    { cptr with httpflags := cptr.httpflags ||| hflagsGzip }
  else cptr

/-- `http_content_length` -/
def httpContentLength (string : List UInt8) (cptr : HttpClient) : HttpClient :=
  let l := strtol string
  { cptr with lenToParse := if 0 < l then l else -1 }

/-- The text `http_cookie` hands to `uuid_parse`, if it finds an `ID`: 36
bytes copied from behind `ID="`, and the byte that happens to follow. -/
def cookieId (after : UInt8) (string : List UInt8) : Option (List UInt8) :=
  (strstr (ascii ['I', 'D', '=']) string).map fun id => cstr ((id.drop 4).take 36 ++ [after])

/-- `http_cookie` -/
def httpCookie (stack : UInt8 × Uuid) (string : List UInt8) (cptr : HttpClient) : HttpClient :=
  match cookieId stack.1 string with
  | none =>
      { cptr with httpflags := (cptr.httpflags ||| hflagsCookieNone) &&& ~~~hflagsCookieRead }
  | some u =>
      if (uuidParse u).getD stack.2 = cptr.uuid then
        { cptr with
          httpflags := (cptr.httpflags ||| hflagsAuthenticated ||| hflagsCookieRead) &&&
            ~~~hflagsCookieNone }
      else cptr

/-- `http_expect` -/
def httpExpect (cptr : HttpClient) : HttpClient :=
  { cptr with httpflags := cptr.httpflags ||| hflagsExpectationFailed }

/-- The comparison of `http_host_header`. -/
def hostMatches (hostHeader hostbuf : List UInt8) : Bool :=
  ircStrncmp (cstr hostHeader) hostbuf ((cstr hostHeader).length - 1) = 0

/-- `http_host_header` -/
def httpHostHeader (hostbuf : List UInt8) (cptr : HttpClient) : HttpClient :=
  let clear := { cptr with flags := cptr.flags &&& ~~~hflagsEmptyHost }
  match cptr.hostHeader with
  | none => clear
  | some hostHeader => if hostMatches hostHeader hostbuf then clear else cptr

/-- `header_messages[j].func` -/
def HttpHeader.func (env : HttpEnv) (stack : UInt8 × Uuid) (string : List UInt8) :
    HttpHeader → HttpClient → HttpClient
  | .acceptEncoding => httpAcceptEncoding env string
  | .contentLength => httpContentLength string
  | .cookie => httpCookie stack string
  | .expect => httpExpect
  | .host => httpHostHeader string

/-- A header line: what is before the colon, and what is after it and a space. -/
def headerField (line : List UInt8) : Option (List UInt8 × List UInt8) :=
  (cutAt 0x3a line).map fun p => (p.1, if p.2.headD 0 = 0x20 then p.2.tail else p.2)

/-- The search in `header_messages`. -/
def lookupHeader (name : List UInt8) : Option HttpHeader :=
  (headerMessages.find? fun m => ircStrcmp name m.1 = 0).map Prod.snd

/-- What a header line does. The value stands in the line buffer, with NULs up
to its end. -/
def runHeader (env : HttpEnv) (stack : HttpStack) (n : Nat) (line name value : List UInt8)
    (cptr : HttpClient) : HttpClient :=
  let string := value ++ List.replicate (httpBufSize - line.length) 0 ++ stack.past
  match lookupHeader name with
  | some h => h.func env (stack.cookie n) string cptr
  | none => cptr

/-! ## `httpd_send.c`, `httpd_get.c`, `httpd_post.c`: the methods -/

/-- `send_http_cookie`, with `HTTP_CREATED`. -/
def sendHttpCookie (stack : HttpStack) (cptr : HttpClient) : HttpClient :=
  let cptr := if cptr.httpflags &&& hflagsCookieNone ≠ 0 then
    { cptr with uuid := stack.newUuid }.does (.generate stack.newUuid) else cptr
  let cptr := cptr.answer .sendHttpCookie 201
  { cptr with httpflags := cptr.httpflags &&& ~~~hflagsCookieNone }

def loginPage : List UInt8 := ascii ['l', 'o', 'g', 'i', 'n', '.', 'h', 't', 'm']

/-- The pages for those who logged in. -/
def adminPages : List (List UInt8) :=
  [ascii ['s', 'e', 'l', 'e', 'c', 't', '.', 'h', 't', 'm'],
    ascii ['l', 'i', 's', 't', 'e', 'n', 'e', 'r', '.', 'h', 't', 'm'],
    ascii ['c', 'o', 'n', 'n', 'e', 'c', 't', 's', '.', 'h', 't', 'm'],
    ascii ['o', 'p', 'e', 'r', 'a', 't', 'o', 'r', '.', 'h', 't', 'm'],
    ascii ['c', 'l', 'a', 's', 's', '.', 'h', 't', 'm'],
    ascii ['a', 'c', 'l', '.', 'h', 't', 'm'],
    ascii ['c', 'o', 'm', 'm', 'a', 'n', 'd', 's', '.', 'h', 't', 'm'],
    ascii ['a', 'u', 't', 'h', '.', 'h', 't', 'm'],
    ascii ['c', 'o', 'n', 'f', 'i', 'g', '.', 'h', 't', 'm']]

/-- The empty forms, which everybody gets, and without a header. -/
def newPages : List (List UInt8) :=
  [ascii ['l', 'i', 's', 't', 'e', 'n', 'e', 'r', '.', 'h', 't', 'a'],
    ascii ['c', 'o', 'n', 'n', 'e', 'c', 't', 's', '.', 'h', 't', 'a'],
    ascii ['o', 'p', 'e', 'r', 'a', 't', 'o', 'r', '.', 'h', 't', 'a'],
    ascii ['c', 'l', 'a', 's', 's', '.', 'h', 't', 'a'],
    ascii ['a', 'u', 't', 'h', '.', 'h', 't', 'a']]

/-- `http_get` -/
def httpGet (env : HttpEnv) (url : List UInt8) (state : Option (List UInt8)) (cptr : HttpClient) :
    HttpClient :=
  let serve := ((if state.isNone then cptr.answer .httpGet 200 else cptr).does (.page url)).exitHttpd
  if cptr.expectationFailed then cptr.refuse .httpGet 417
  else if url.headD 0 = 0x2f then
    if ircStrncmp url env.indexFile env.indexFileLen = 0 ||
        (!env.requireIndex && ircStrcmp url (ascii ['/']) = 0) then serve
    else if ircStrcmp url.tail loginPage = 0 then serve
    else if adminPages.any fun p => ircStrcmp url.tail p = 0 then
      if cptr.authenticated then serve else cptr.refuse .httpGet 403
    else if newPages.any fun p => ircStrcmp url.tail p = 0 then (cptr.does (.page url)).exitHttpd
    else cptr.refuse .httpGet 404
  else cptr

/-- The cut of an element at `strchr(element, '=')`; without a `=` the source
writes through a null pointer. -/
def formField (element : List UInt8) : Except HttpFault FormField :=
  match cutAt 0x3d element with
  | none => .error .nullPointer
  | some field => .ok field

/-- The loop over the elements of `decoded_data`, with which every form starts. -/
def formFields (decoded : List UInt8) : Except HttpFault (List FormField) :=
  (strtokens [0x26] decoded).mapM formField

/-- What a logon form says. -/
structure Logon where
  login : Nat
  user : Option (List UInt8)
  pass : Option (List UInt8)

/-- What a field of a logon form says. -/
def Logon.field (l : Logon) (f : FormField) : Logon :=
  if ircStrncmp f.1 (ascii ['c', 'o', 'm', 'm']) 4 = 0 then
    if ircStrncmp f.2 (ascii ['L', 'o', 'g', 'i', 'n']) 5 = 0 then { l with login := 1 } else l
  else if ircStrncmp f.1 (ascii ['u', 's', 'e', 'r']) 4 = 0 then { l with user := some f.2 }
  else if ircStrncmp f.1 (ascii ['p', 'a', 's', 's']) 4 = 0 then { l with pass := some f.2 }
  else if ircStrncmp f.1 (ascii ['r', 'e', 's', 'e', 't']) 5 = 0 then
    if ircStrncmp f.2 (ascii ['R', 'e', 's', 'e', 't']) 5 = 0 then { l with login := 2 } else l
  else l

/-- The fields of a decoded logon form. -/
def logonFields (decoded : List UInt8) : Except HttpFault Logon :=
  (formFields decoded).map fun fs => fs.foldl Logon.field { login := 0, user := none, pass := none }

/-- The checks of a user and a password. -/
def credentialsOk (env : HttpEnv) (user pass : List UInt8) : Bool :=
  if env.webconfig then
    ircStrcmp user (ascii ['a', 'd', 'm', 'i', 'n']) = 0 && ircStrcmp pass env.webconfigpass = 0
  else
    match env.findOperator user with
    | none => false
    | some (passwd, weblogin) => ircStrcmp passwd (env.calcpass pass) = 0 && weblogin

def selectUrl : List UInt8 := ascii ['/', 's', 'e', 'l', 'e', 'c', 't', '.', 'h', 't', 'm']

def loginUrl : List UInt8 := ascii ['/', 'l', 'o', 'g', 'i', 'n', '.', 'h', 't', 'm']

def logonPage : List UInt8 := ascii ['l', 'o', 'g', 'o', 'n', '.', 'h', 't', 'i']

/-- What `http_post` does with a logon form. -/
def httpLogon (env : HttpEnv) (stack : HttpStack) (l : Logon) (cptr : HttpClient) : HttpClient :=
  if l.login = 1 then
    match l.user, l.pass with
    | some user, some pass =>
        if credentialsOk env user pass then
          let cptr := { cptr with httpflags := cptr.httpflags ||| hflagsAuthenticated }
          httpGet env selectUrl (some (ascii ['a'])) (sendHttpCookie stack cptr)
        else cptr.refuse .httpPost 403
    | _, _ => cptr.refuse .httpPost 403
  else if l.login = 2 then
    httpGet env loginUrl (some (ascii ['a'])) (cptr.answer .httpPost 201)
  else cptr.refuse .httpPost 500

/-- The names the other forms are posted to, with how many bytes are compared. -/
def configPages : List (List UInt8 × Option Int) :=
  [(ascii ['l', 'i', 's', 't', 'e', 'n', 'e', 'r', '.', 'h', 't', 'i'], none),
    (ascii ['l', 'i', 's', 't', 'e', 'n', 'e', 'r', '.', 'h', 't', 'c'], some 12),
    (ascii ['c', 'o', 'n', 'n', 'e', 'c', 't', 's', '.', 'h', 't', 'i'], none),
    (ascii ['c', 'o', 'n', 'n', 'e', 'c', 't', 's', '.', 'h', 't', 'c'], some 12),
    (ascii ['a', 'c', 'l', '.', 'h', 't', 'i'], none),
    (ascii ['o', 'p', 'e', 'r', 'a', 't', 'o', 'r', '.', 'h', 't', 'i'], none),
    (ascii ['o', 'p', 'e', 'r', 'a', 't', 'o', 'r', '.', 'h', 't', 'c'], some 12),
    (ascii ['c', 'l', 'a', 's', 's', '.', 'h', 't', 'i'], none),
    (ascii ['c', 'l', 'a', 's', 's', '.', 'h', 't', 'c'], some 9),
    (ascii ['a', 'u', 't', 'h', '.', 'h', 't', 'i'], none),
    (ascii ['a', 'u', 't', 'h', '.', 'h', 't', 'c'], some 8),
    (ascii ['c', 'o', 'n', 'f', 'i', 'g', 'u', 'r', 'e', '.', 'h', 't', 'i'], some 8),
    (ascii ['c', 'o', 'm', 'm', 'a', 'n', 'd', 's', '.', 'h', 't', 'i'], none)]

def configPage (name : List UInt8) : Bool :=
  configPages.any fun p =>
    match p.2 with
    | none => ircStrcmp name p.1 = 0
    | some n => ircStrncmp name p.1 n = 0

def classPage : List UInt8 := ascii ['c', 'l', 'a', 's', 's', '.', 'h', 't', 'c']

/-- What a form for `class.htc` says, but for the number of the class. -/
structure ClassForm where
  commit : Nat
  pingV : Int
  connV : Int
  maxlV : Int
  sendq : Int

/-- What a field of it says. -/
def ClassForm.field (l : ClassForm) (f : FormField) : ClassForm :=
  if ircStrncmp f.1 (ascii ['c', 'o', 'm', 'm']) 4 = 0 then
    if ircStrncmp f.2 (ascii ['C', 'o', 'm']) 3 = 0 then { l with commit := 1 } else l
  else if ircStrncmp f.1 (ascii ['n', 'e', 'w']) 3 = 0 then
    if ircStrncmp f.2 (ascii ['N', 'e', 'w']) 3 = 0 then { l with commit := 3 } else l
  else if ircStrncmp f.1 (ascii ['c', 'l']) 2 = 0 then l
  else if ircStrncmp f.1 (ascii ['p', 'i']) 2 = 0 then { l with pingV := atoi f.2 }
  else if ircStrncmp f.1 (ascii ['c', 'o']) 2 = 0 then { l with connV := atoi f.2 }
  else if ircStrncmp f.1 (ascii ['m', 'a']) 2 = 0 then { l with maxlV := atoi f.2 }
  else if ircStrncmp f.1 (ascii ['s', 'e']) 2 = 0 then { l with sendq := strtol f.2 }
  else l

/-- `class.htc` is to store a class with a value below 1: it returns. -/
def turnsDown (name : List UInt8) (fields : List FormField) : Bool :=
  let l := fields.foldl ClassForm.field
    { commit := 0, pingV := 0, connV := 0, maxlV := 0, sendq := 0 }
  ircStrncmp name classPage 9 = 0 && 0 < l.commit &&
    (l.pingV < 1 || l.connV < 1 || l.maxlV < 1 || l.sendq < 1)

/-- What `http_post` does with a form of the configuration; what the form changes
is not in the client. -/
def httpConfigure (env : HttpEnv) (url decoded : List UInt8) (cptr : HttpClient) :
    Except HttpFault HttpClient :=
  if cptr.authenticated then
    (formFields decoded).bind fun fields => (env.commit url fields).map fun _ =>
      -- there is no answer then, and the client is not closed
      if turnsDown url.tail fields then cptr
      else (cptr.does (.configure url decoded)).exitHttpd
  else .ok (cptr.refuse .httpPost 403)

/-- `http_post` -/
def httpPost (env : HttpEnv) (stack : HttpStack) (url : List UInt8) (data : Option (List UInt8))
    (cptr : HttpClient) : Except HttpFault HttpClient :=
  let data := data.getD []
  if cptr.expectationFailed then .ok (cptr.refuse .httpPost 417)
  else if data = [] then
    .ok { cptr with
      httpflags := cptr.httpflags ||| hflagsParseWait
      hparsefunc := some .post }
  else
    let cptr := { cptr with httpflags := cptr.httpflags &&& ~~~hflagsParseWait }
    if cptr.lenToParse = 0 then .ok (cptr.refuse .httpPost 411)
    else
      let cptr := { cptr with lenToParse := 0, hparsefunc := some .mna }
      let decoded := decodeInto stack.form data
      if url.headD 0 = 0x2f then
        if ircStrcmp url.tail logonPage = 0 then
          (logonFields decoded).map fun l => httpLogon env stack l cptr
        else if configPage url.tail then httpConfigure env url decoded cptr
        else .ok (cptr.refuse .httpPost 404)
      else .ok cptr

/-- `http_mna` -/
def httpMna (cptr : HttpClient) : HttpClient := cptr.answer .httpMna 405

/-- The call of a method function. -/
def callMethod (env : HttpEnv) (stack : HttpStack) (func : HttpMethod) (url : List UInt8)
    (data : Option (List UInt8)) (cptr : HttpClient) : Except HttpFault HttpClient :=
  let cptr := cptr.does (.call env func url data)
  match func with
  | .get => .ok (httpGet env url data cptr)
  | .post => httpPost env stack url data cptr
  | .mna => .ok (httpMna cptr)

/-! ## `httpd_headers.c`: `parse_client_header` -/

/-- What ends a line for `parse_client_header`. -/
def endsLine (c : UInt8) : Bool := c = 0x0d || c = 0x0a || c = 0

/-- The loop of `parse_client_header`: the client after the headers, and the
line without a colon, decoded, if there is one. -/
def parseLoop (env : HttpEnv) (stack : HttpStack) : List UInt8 → Nat → List UInt8 → HttpClient →
    Except HttpFault (HttpClient × Option (List UInt8))
  | [], n, line, cptr =>
      if line = [] then .ok (cptr, none)
      else
        match headerField line with
        | none => .ok (cptr, some (decodeInto [] line))
        | some (name, value) => .ok (runHeader env stack n line name value cptr, none)
  | c :: buffer, n, line, cptr =>
      if endsLine c then
        if line = [] then parseLoop env stack buffer n [] cptr
        else
          match headerField line with
          | none => .ok (cptr, some (decodeInto [] line))
          | some (name, value) =>
              parseLoop env stack buffer (n + 1) [] (runHeader env stack n line name value cptr)
      else if line.length + 1 < httpBufSize then
        parseLoop env stack buffer n (line ++ [c]) cptr
      else .error .overflow

/-- `parse_client_header` -/
def parseClientHeader (env : HttpEnv) (stack : HttpStack) (buffer url : List UInt8)
    (func : HttpMethod) (cptr : HttpClient) : Except HttpFault HttpClient :=
  (parseLoop env stack buffer 0 [] cptr).bind fun (cptr, data) =>
    match data with
    | some data => callMethod env stack func url (some data) cptr
    | none =>
        let cptr := if cptr.flags &&& hflagsEmptyHost ≠ 0 then
          cptr.refuse .parseClientHeader 400 else cptr
        callMethod env stack func url none cptr

/-! ## `httpd_reader.c` -/

/-- The entries of `httpd_methods` with `parse` set. -/
def httpdMethods : List (List UInt8 × HttpMethod) :=
  [(ascii ['G', 'E', 'T'], .get), (ascii ['P', 'O', 'S', 'T'], .post),
    (ascii ['H', 'E', 'A', 'D'], .mna)]

/-- `lookup_method` -/
def lookupMethod (met : List UInt8) : Option HttpMethod :=
  (httpdMethods.find? fun m => ircStrcmp m.1 met = 0).map Prod.snd

/-- `check_version_string` -/
def checkVersionString (str : Option (List UInt8)) : Int :=
  match str with
  | none => 0
  | some str =>
      if ircStrncmp str (ascii ['H', 'T', 'T', 'P', '/']) 5 = 0 then
        let revision := str.drop 5
        if 0x2e ∈ revision then atoi revision else -1
      else -1

/-- The string from where `strchr` finds the byte on. -/
def strchr (c : UInt8) (s : List UInt8) : Option (List UInt8) :=
  if c ∈ s then some (s.dropWhile (· ≠ c)) else none

/-- Whether an absolute `url` names another host. -/
def urlOfOther (hostHeader : Option (List UInt8)) (url : List UInt8) : Bool :=
  (strstr (ascii ['h', 't', 't', 'p', ':', '/', '/']) url).isSome &&
    match hostHeader with
    | some h => !(ircStrncmp (url.drop 7) h ((cstr h).length - 1) = 0)
    | none => false

/-- The path in a `url`. -/
def urlPath (url : List UInt8) : Option (List UInt8) :=
  if (strstr (ascii ['h', 't', 't', 'p', ':', '/', '/']) url).isSome then strchr 0x2f (url.drop 7)
  else some url

/-- The first line of a packet. -/
def requestLine (packet : List UInt8) : List UInt8 :=
  packet.takeWhile fun c => !(c = 0x0d || c = 0x0a)

/-- `http_dopacket` -/
def httpDopacket (env : HttpEnv) (stack : HttpStack) (packet : List UInt8) (cptr : HttpClient) :
    Except HttpFault HttpClient :=
  if cptr.httpflags &&& hflagsParseWait = 0 then
    let line := requestLine packet
    if httpBufSize ≤ line.length then .error .overflow
    else
      match strtokens [0x20] line with
      | [] => .error .nullPointer
      | method :: tokens =>
          match lookupMethod method with
          | none => .ok (cptr.refuse .httpDopacket 501)
          | some func =>
              match tokens with
              | [] => .ok (cptr.refuse .httpDopacket 400)
              | url :: tokens =>
                  if urlOfOther cptr.hostHeader url then .ok (cptr.refuse .httpDopacket 400)
                  else if checkVersionString tokens.head? ≠ 1 then
                    .ok (cptr.refuse .httpDopacket 505)
                  else
                    match urlPath url with
                    | none => .error .nullPointer
                    | some url =>
                        parseClientHeader env stack (packet.drop line.length) url func
                          { cptr with hurl := url }
  else
    match cptr.hparsefunc with
    | none => .error .nullPointer
    | some func => parseClientHeader env stack packet cptr.hurl func cptr

/-- `finalize_http_client`, up to the read. -/
def finalizeHttpClient (cptr : HttpClient) : HttpClient :=
  { cptr with
    flags := (((cptr.flags ||| flagsHttpclient) &&& ~~~flagsDeadsocket) &&& ~~~flagsClosing) &&&
      ~~~flagsExited
    httpflags := cptr.httpflags ||| hflagsEmptyHost ||| hflagsCookieNone }

/-- `read_http_packet`, with what was read. -/
def readHttpPacket (env : HttpEnv) (stack : HttpStack) (packet : List UInt8) (cptr : HttpClient) :
    Except HttpFault HttpClient :=
  if cptr.flags &&& flagsDeadsocket ≠ 0 then .ok cptr.exitHttpd
  else if packet = [] then .ok cptr.exitHttpd
  else httpDopacket env stack packet (cptr.does (.request packet))

/-- `make_client`, on a listener. -/
def makeHttpClient (hostHeader : Option (List UInt8)) : HttpClient where
  flags := 0
  httpflags := 0
  uuid := 0
  lenToParse := 0
  hurl := []
  hparsefunc := none
  hostHeader := hostHeader
  log := []

/-! ## The server -/

structure HttpSt where
  clients : List Nat
  client : Nat → HttpClient

/-- A connection on a new client, or on the one its address has already
(`regain_httpd_listener`), a packet, and a client freed. -/
inductive HttpOp
  | accept (hostHeader : Option (List UInt8))
  | regain (cptr : Nat) (hostHeader : Option (List UInt8))
  | read (cptr : Nat) (env : HttpEnv) (stack : HttpStack) (packet : List UInt8)
  | free (cptr : Nat)

namespace HttpSt

def init : HttpSt where
  clients := []
  client _ := makeHttpClient none

def step (A : Allocator) (s : HttpSt) : HttpOp → Except HttpFault HttpSt
  | .accept hostHeader =>
      let cptr := A.pick s.clients
      .ok { clients := cptr :: s.clients
            client := update s.client cptr (finalizeHttpClient (makeHttpClient hostHeader)) }
  | .regain cptr hostHeader =>
      if cptr ∈ s.clients then
        let c := finalizeHttpClient { s.client cptr with hostHeader := hostHeader }
        .ok { s with client := update s.client cptr c }
      else .error .notCalled
  | .read cptr env stack packet =>
      if cptr ∈ s.clients ∧ packet.length ≤ httpReadBufSize then
        (readHttpPacket env stack packet (s.client cptr)).map fun c =>
          { s with client := update s.client cptr c }
      else .error .notCalled
  | .free cptr => .ok { s with clients := s.clients.erase cptr }

end HttpSt

end TrIrcd
