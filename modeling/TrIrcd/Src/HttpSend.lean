import TrIrcd.Src.Httpd
import TrIrcd.Src.Ircsprintf
import TrIrcd.Src.Outgoing

/-!
# `src/httpd/httpd_send.c`: answers

`send_http_header` sends the header fields one message each, and behind them
the page of a status that has one. `sendto_http` formats a message without a
bound into `sendbuf`, `send_http_message` looks from its end for the last byte
that is not NUL and gives it to `linebuf_put`, which keeps 512 bytes. The page
is formatted into `hBuf` first, with a bound, and the length from there is what
`Content-Length` says.

`herrortab` has 505 entries, and status 505 reads the one behind them; the page
of status 411 has a `%s` that is given no argument. What is read in these two
places is the environment's, as are the date, the version and the socket.
-/

namespace TrIrcd

open TrIrcd.Lib

inductive HttpSendStop
  /-- A byte outside of `sendbuf` or `hBuf`. -/
  | outside
  /-- `msg[-1]` -/
  | beforeStart
  /-- A format that finds an argument it cannot print, or none. -/
  | argument
  /-- A function of `linebuf.c`, or the socket. -/
  | link (stop : OutStop)
deriving DecidableEq

structure HttpTexts where
  printf : PrintfEnv
  /-- `httpdate`, by the seconds from now. Its `buf` has 80 bytes. -/
  httpdate : Int → List UInt8
  httpdate_length : ∀ ac, (httpdate ac).length < 80
  /-- It has 128 bytes. -/
  version : List UInt8
  version_length : version.length < 128
  /-- The array on the stack before anything is written to it. -/
  hBuf : List UInt8
  hBuf_length : hBuf.length = httpBufSize
  /-- `herrortab[505]` -/
  behindHerrortab : PrintfArg
  /-- What is read where an argument is missing. -/
  missing : List PrintfArg

/-! ## One message -/

/-- The loop of `send_http_message`, from `msg[len]` down; `none` if it reads
`msg[-1]`. -/
def chopNuls (msg : List UInt8) : Nat → Option Nat
  | 0 => if msg.getD 0 0 = 0 then none else some 0
  | len + 1 => if msg.getD (len + 1) 0 = 0 then chopNuls msg len else some (len + 1)

namespace OutLink

variable {ζ : Type}

/-- `send_http_queued` -/
def sendHttpQueued (answers : List SocketAnswer) (link : OutLink ζ) :
    Except OutStop (OutLink ζ) :=
  if link.sendQ.len ≠ 0 then
    match sendQueuedLoop (.sendQ link.cptr) answers link.bufs with
    | .error e => .error (.line e)
    | .ok (rlen, ignorable, s) =>
        let link := { link with bufs := s }
        if rlen < 0 ∧ ignorable then .ok link else link.deadLinkOnWrite
  else .ok link

/-- `http_send_linebuf`: the link, and what the queue gained. -/
def httpSendLinebuf (answers : List SocketAnswer) (link : OutLink ζ) :
    Except OutStop (OutLink ζ × List UInt8) :=
  if link.fd < 0 then .ok (link, [])
  else if link.isDead then .ok (link, [])
  else if link.sendQ.len > link.sendqlen then
    { link with sendqex := true }.deadLinkOnWrite.map fun link => (link, [])
  else
    (link.withBufs (linebufAttach (.sendQ link.cptr) (.linebuf 0) link.bufs)).bind fun link' =>
      (link'.sendHttpQueued answers).map fun link'' => (link'', link.gained link')

/-- `send_http_message` from `linebuf_newbuf` to `linebuf_donebuf`. -/
def sendHttpBlock (A : Allocator) (answers : List SocketAnswer) (block : List UInt8)
    (link : OutLink ζ) : Except OutStop (OutLink ζ × List UInt8) :=
  (link.withBufs
      (linebufPut A (.linebuf 0) block (linebufNewbuf (.linebuf 0) link.bufs))).bind fun link =>
    (link.httpSendLinebuf answers).bind fun (link, gained) =>
      (link.withBufs (linebufDonebuf (.linebuf 0) link.bufs)).map fun link => (link, gained)

/-- `send_http_message` -/
def sendHttpMessage (A : Allocator) (answers : List SocketAnswer) (msg : List UInt8) (len : Nat)
    (link : OutLink ζ) : Except HttpSendStop (OutLink ζ × List UInt8) :=
  match chopNuls msg len with
  | none => .error .beforeStart
  | some len =>
      let len := if len > 1023 then 1023 else len
      if len + 1 < msg.length then
        (link.sendHttpBlock A answers ((msg.set (len + 1) 0).take (len + 1))).mapError .link
      else .error .outside

end OutLink

/-- A call of `sendto_http`. -/
structure HttpMessage where
  pattern : String
  args : List PrintfArg

/-- A client, and what each message has added to its queue. -/
structure HttpOut where
  link : OutLink Unit
  gained : List (List UInt8)

/-- `sendto_http` -/
def HttpTexts.sendtoHttp (T : HttpTexts) (A : Allocator) (answers : Nat → List SocketAnswer)
    (m : HttpMessage) (out : HttpOut) : Except HttpSendStop HttpOut :=
  match T.printf.ircsprintf (textBytes m.pattern) m.args with
  | none => .error .argument
  | some (len, written) =>
      match storeAll written (List.replicate httpBufSize 0) with
      | none => .error .outside
      | some sendbuf =>
          (out.link.sendHttpMessage A (answers out.gained.length) sendbuf len).map
            fun (link, gained) => ⟨link, out.gained ++ [gained]⟩

/-- One message after another. -/
def HttpTexts.sendAll (T : HttpTexts) (A : Allocator) (answers : Nat → List SocketAnswer) :
    List HttpMessage → HttpOut → Except HttpSendStop HttpOut
  | [], out => .ok out
  | m :: messages, out =>
      (T.sendtoHttp A answers m out).bind (HttpTexts.sendAll T A answers messages)

/-! ## The fields -/

/-- `configure_httpd_errors` -/
def herrortab : Nat → Option String
  | 100 => some "Continue"
  | 101 => some "Switchting Protocols"
  | 200 => some "OK"
  | 201 => some "Created"
  | 202 => some "Accepted"
  | 203 => some "Non-Authoritative Information"
  | 204 => some "No Content"
  | 205 => some "Reset Content"
  | 206 => some "Partial Content"
  | 300 => some "Multiple Choices"
  | 301 => some "Moved Permanently"
  | 302 => some "Found"
  | 303 => some "See Other"
  | 304 => some "Not Modified"
  | 305 => some "Use Proxy"
  | 307 => some "Temporary Redirect"
  | 400 => some "Bad Request"
  | 401 => some "Unauthorized"
  | 402 => some "Payment Required"
  | 403 => some "Forbidden"
  | 404 => some "Not found"
  | 405 => some "Method Not Allowed"
  | 406 => some "Not Acceptable"
  | 407 => some "Proxy Authentication Required"
  | 408 => some "Request Time-out"
  | 409 => some "Conflict"
  | 410 => some "Gone"
  | 411 => some "Length Required"
  | 412 => some "Precondition Failed"
  | 413 => some "Request Entity Too Large"
  | 414 => some "Request-URI Too Large"
  | 415 => some "Unsupported Media Type"
  | 416 => some "Requested range not satisfiable"
  | 417 => some "Expectation Failed"
  | 500 => some "Internal Server Error"
  | 501 => some "Not Implemented"
  | 502 => some "Bad Gateway"
  | 503 => some "Service Unavailable"
  | 504 => some "Gateway Time-out"
  | _ => none

namespace HttpTexts

variable (T : HttpTexts)

/-- `herrortab[s]` -/
def errorText (s : Nat) : PrintfArg :=
  if s < 505 then .string ((herrortab s).map textBytes) else T.behindHerrortab

/-- `send_http_status` -/
def sendHttpStatus (s : Nat) : HttpMessage :=
  ⟨"HTTP/1.1 %d %s\r\n", [.word (UInt64.ofNat s), T.errorText s]⟩

/-- `http_age` -/
def httpAge : HttpMessage := ⟨"Age: %lu\r\n", [.word 1440]⟩

/-- `http_allow` -/
def httpAllow : HttpMessage := ⟨"Allow: GET, POST\r\n", []⟩

/-- `http_cache_control` -/
def httpCacheControl : HttpMessage := ⟨"Cache-Control: must-revalidate\r\n", []⟩

/-- `http_connection` -/
def httpConnection : HttpMessage := ⟨"Connection: close\r\n", []⟩

/-- `http_content_language` -/
def httpContentLanguage : HttpMessage := ⟨"Content-Language: en\r\n", []⟩

/-- `http_content_location` -/
def httpContentLocation (string : Option (List UInt8)) : HttpMessage :=
  ⟨"Content-Location: %s\r\n", [.string string]⟩

/-- `http_content_type` -/
def httpContentType : HttpMessage := ⟨"Content-Type: text/html\r\n", []⟩

/-- `http_date` -/
def httpDate : HttpMessage := ⟨"Date: %s\r\n", [.string (some (T.httpdate 0))]⟩

/-- `http_expires` -/
def httpExpires : HttpMessage := ⟨"Expires: %s\r\n", [.string (some (T.httpdate 1440))]⟩

/-- `http_last_modified` -/
def httpLastModified : HttpMessage :=
  ⟨"Last-Modified: %s\r\n", [.string (some (T.httpdate (-1)))]⟩

/-- `http_location` -/
def httpLocation (string : Option (List UInt8)) : HttpMessage :=
  ⟨"Location: %s\r\n", [.string string]⟩

/-- `http_retry_after` -/
def httpRetryAfter (string : Option (List UInt8)) : HttpMessage :=
  ⟨"Retry-After: %s\r\n", [.string string]⟩

/-- `http_server` -/
def httpServer : HttpMessage :=
  ⟨"Server: TR-IRCD/httpd-%s (httpd.so)\r\n", [.string (some T.version)]⟩

/-! ## The headers -/

/-- What the functions with a page differ in: the status, the field before
`Content-Type`, and the page. -/
structure ErrorPage where
  status : Nat
  field : Option HttpMessage
  page : String
  args : List PrintfArg

/-- `send_http_header_mna` -/
def sendHttpHeaderMna : ErrorPage where
  status := 405
  field := some httpAllow
  page := "<html><head>Method not available</head><body>Server cannot fulfill your request</body></html>\r\n\r\n"
  args := []

/-- `send_http_header_sun` -/
def sendHttpHeaderSun : ErrorPage where
  status := 503
  field := some (httpRetryAfter (some (textBytes "86400")))
  page := "<html><head>Service unavailable</head><body>Server cannot fulfill your request</body></html>\r\n\r\n"
  args := []

/-- `send_http_header_nf` -/
def sendHttpHeaderNf (document : Option (List UInt8)) : ErrorPage where
  status := 404
  field := none
  page := "<html><head>Page %s not found</head><body>Page does not exist anymore</body></html>\r\n\r\n"
  args := [.string document]

/-- `send_http_header_f` -/
def sendHttpHeaderF : ErrorPage where
  status := 403
  field := none
  page := "<html><head>Permission denied</head><body><br><a href=\"login.htm\">Back to the login page</a></body></html>\r\n\r\n"
  args := []

/-- `send_http_header_ef` -/
def sendHttpHeaderEf : ErrorPage where
  status := 417
  field := none
  page := "<html><head>Expectation failed</head><body>Server cannot fulfill your request</body></html>\r\n\r\n"
  args := []

/-- `send_http_header_vns` -/
def sendHttpHeaderVns : ErrorPage where
  status := 505
  field := none
  page := "<html><head>Version not supported</head><body>Server cannot fulfill your request</body></html>\r\n\r\n"
  args := []

/-- `send_http_header_lr`, which does not pass on its document. -/
def sendHttpHeaderLr : ErrorPage where
  status := 411
  field := none
  page := "<html><head>Length required</head><body>Unable to understand your request for %s. Length required.</body></html>\r\n\r\n"
  args := T.missing

/-- `send_http_header_ni` -/
def sendHttpHeaderNi : ErrorPage where
  status := 501
  field := none
  page := "<html><head>Method not implemented</head><body>Server cannot fulfill your request</body></html>\r\n\r\n"
  args := []

/-- `send_http_header_br` -/
def sendHttpHeaderBr : ErrorPage where
  status := 400
  field := none
  page := "<html><head>Bad Request</head><body>Bad request</body></html>\r\n\r\n"
  args := []

/-- `send_http_header_ie` -/
def sendHttpHeaderIe : ErrorPage where
  status := 500
  field := none
  page := "<html><head>Internal Error</head><body>Unable to process request</body></html>\r\n\r\n"
  args := []

/-- The messages of a page, with what is in `hBuf` and its length. -/
def ErrorPage.messages (p : ErrorPage) (len : Nat) (hBuf : List UInt8) : List HttpMessage :=
  [T.sendHttpStatus p.status, T.httpDate, T.httpServer, httpConnection] ++ p.field.toList ++
    [httpContentType, ⟨"Content-Length: %d", [.word (UInt64.ofNat len)]⟩,
      ⟨"\r\n\r\n%s", [.string (some hBuf)]⟩]

/-- What the functions with a page do. The second value is the length they
announce. -/
def ErrorPage.send (A : Allocator) (answers : Nat → List SocketAnswer) (p : ErrorPage)
    (link : OutLink Unit) : Except HttpSendStop (HttpOut × Option Nat) :=
  match T.printf.ircsnprintf httpBufSize (textBytes p.page) p.args with
  | none => .error .argument
  | some (len, written) =>
      match storeAll written T.hBuf with
      | none => .error .outside
      | some hBuf => (T.sendAll A answers (p.messages T len hBuf) ⟨link, []⟩).map (·, some len)

/-- `send_http_header_ok` and `send_http_header_created`, and the message
behind them. -/
def sendHttpHeaderFound (status : Nat) (document : Option (List UInt8)) : List HttpMessage :=
  [T.sendHttpStatus status, T.httpDate, T.httpServer, httpAge, httpCacheControl, T.httpExpires,
    T.httpLastModified, httpConnection, httpContentLanguage, httpContentLocation document,
    httpContentType, httpLocation document, ⟨"\r\n\r\n", []⟩]

/-- `send_http_header_nc` -/
def sendHttpHeaderNc : List HttpMessage :=
  [T.sendHttpStatus 204, T.httpDate, T.httpServer, httpConnection]

/-- The statuses that have a page, with their functions. -/
def errorPage (document : Option (List UInt8)) : Nat → Option ErrorPage
  | 405 => some sendHttpHeaderMna
  | 503 => some sendHttpHeaderSun
  | 404 => some (sendHttpHeaderNf document)
  | 403 => some sendHttpHeaderF
  | 417 => some sendHttpHeaderEf
  | 505 => some sendHttpHeaderVns
  | 411 => some (T.sendHttpHeaderLr)
  | 501 => some sendHttpHeaderNi
  | 400 => some sendHttpHeaderBr
  | 500 => some sendHttpHeaderIe
  | _ => none

/-- `send_http_header` -/
def sendHttpHeader (A : Allocator) (answers : Nat → List SocketAnswer)
    (document : Option (List UInt8)) (status : Nat) (link : OutLink Unit) :
    Except HttpSendStop (HttpOut × Option Nat) :=
  match T.errorPage document status with
  | some p => p.send T A answers link
  | none =>
      let fields :=
        if status = 200 ∨ status = 201 then T.sendHttpHeaderFound status document
        else if status = 204 then T.sendHttpHeaderNc
        else []
      (T.sendAll A answers fields ⟨link, []⟩).map (·, none)

end HttpTexts

end TrIrcd
