import TrIrcd.Src.Chanmodes

/-!
# `src/chanmodes.c`: `set_mode`

`set_mode` goes through a mode string. A sign says what the letters behind it
ask for; a letter is handed to the handler its entry in `modetab` has for the
sender, with the way it is asked for, `adl`. A letter that can be listed and
comes without parameters only asks for the list. In `mbuf` stands what was
done: a handler puts its letter there, and `set_mode` the signs.

The handlers come from modules. Whatever they do to the channel, to `pbuf` and
to `args` is a state of their own; in `mbuf` they write at `mbix`, and nothing
but their letter. The text of `mbuf` is what stands below `mbix`. The flag that
`ClearOperMode` takes from the sender is left out.
-/

namespace TrIrcd

/-- `CMODE_LIST`, `CMODE_ADD` and `CMODE_DEL` -/
inductive Cmode
  | list
  | add
  | del
deriving DecidableEq, Repr

/-- What a handler leaves of its state, `nmodes`, and whether it has put its
letter into `mbuf`. -/
structure ModeReply (σ : Type) where
  state : σ
  nmodes : Int
  appends : Bool

/-- `cmode_handler_user` and the others; the letter is their own. -/
abbrev CmodeHandler (σ : Type) := Cmode → Int → σ → ModeReply σ

/-- `struct ChanMode`, with its handlers. -/
structure ModeItem (σ : Type) where
  inUse : Bool
  /-- `MFLG_LISTABLE` -/
  listable : Bool
  cmodeHandlerUser : CmodeHandler σ
  cmodeHandlerOper : CmodeHandler σ
  cmodeHandlerUlined : CmodeHandler σ
  cmodeHandlerServer : CmodeHandler σ
  cmodeHandlerService : CmodeHandler σ

/-- What is asked of the sender. -/
structure ModeSender where
  myClient : Bool
  isService : Bool
  isULine : Bool
  isServer : Bool
  isAnOper : Bool
deriving DecidableEq, Repr

section SetMode

variable {σ : Type}

/-- The handler for the sender. -/
def ModeItem.handler (item : ModeItem σ) (sptr : ModeSender) : CmodeHandler σ :=
  if sptr.isService then item.cmodeHandlerService
  else if sptr.isULine then item.cmodeHandlerUlined
  else if sptr.isServer then item.cmodeHandlerServer
  else if sptr.isAnOper then item.cmodeHandlerOper
  else item.cmodeHandlerUser

/-- What the loop of `set_mode` changes. -/
structure ModeSt (σ : Type) where
  adl : Cmode
  nmodes : Int
  mbuf : List UInt8
  /-- The letters `ERR_UNKNOWNMODE` is sent for. -/
  unknown : List UInt8
  state : σ

/-- `mbuf[(mbix - 1)]` is the other sign and becomes this one, or this one is put
behind a letter if `adl` is the other. -/
def putSign (mbuf : List UInt8) (adl : Cmode) (sign other : UInt8) (otherAdl : Cmode) :
    List UInt8 :=
  if mbuf.getLast? = some other then mbuf.dropLast ++ [sign]
  else if adl = otherAdl then mbuf ++ [sign]
  else mbuf

variable (modetab : UInt8 → ModeItem σ) (sptr : ModeSender) (parc : Int)

/-- One letter of the mode string; `s` is taken as an `unsigned char`. -/
def modeChar (m : ModeSt σ) (s : UInt8) : ModeSt σ :=
  if s = 43 then
    { m with mbuf := putSign m.mbuf m.adl 43 45 .del, adl := .add }
  else if s = 45 then
    { m with mbuf := putSign m.mbuf m.adl 45 43 .add, adl := .del }
  else if 31 < s ∧ s < 128 then
    let item := modetab s
    if ¬ item.inUse then
      if sptr.myClient then { m with unknown := m.unknown ++ [s] } else m
    else
      let adl := if parc = 1 ∧ item.listable then .list else m.adl
      let r := item.handler sptr adl m.nmodes m.state
      { m with
        adl := adl
        nmodes := r.nmodes
        state := r.state
        -- A handler that lists appends nothing.
        mbuf := if r.appends ∧ adl ≠ .list then m.mbuf ++ [s] else m.mbuf }
  else if sptr.myClient then { m with unknown := m.unknown ++ [s] }
  else m

/-- `maxmodes` -/
def maxmodes : Int := if sptr.isServer ∨ sptr.isULine then 512 else maxModeParams

/-- The loop over the mode string, up to its NUL. -/
def setModeLoop : ModeSt σ → List UInt8 → ModeSt σ
  | m, [] => m
  | m, s :: modes =>
      if s = 0 ∨ ¬ m.nmodes < maxmodes sptr then m
      else setModeLoop (modeChar modetab sptr parc m s) modes

/-- A sign at the end goes. -/
def endModes (mbuf : List UInt8) : List UInt8 :=
  if mbuf.getLast? = some 43 ∨ mbuf.getLast? = some 45 then mbuf.dropLast else mbuf

/-- `set_mode`; `mbuf` is the text the caller hands in. -/
def setMode (mbuf modes : List UInt8) (state : σ) : ModeSt σ :=
  if parc < 1 then { adl := .list, nmodes := 0, mbuf := mbuf, unknown := [], state := state }
  else
    let m := setModeLoop modetab sptr parc
      { adl := .list, nmodes := 0, mbuf := [43], unknown := [], state := state } modes
    { m with mbuf := endModes m.mbuf }

end SetMode

/-!
## `src/usermodes.c`: `send_umode`

A mode word is the `long` that a test with a flag of `umodetab` reads. The
fields of the table for the flags that a mode requires and removes are left
out, and so is the line that is sent to `cptr`.
-/

/-- `struct UserMode` -/
structure UserMode where
  type : BitVec 64
  inUse : Bool
deriving DecidableEq, Repr

/-- `umodetab` -/
def umodetab : Nat → UserMode
  | 65 => ⟨0x0040, true⟩
  | 67 => ⟨0x4000, true⟩
  | 72 => ⟨0x0800, true⟩
  | 80 => ⟨0x8000, true⟩
  | 82 => ⟨0x0100, true⟩
  | 97 => ⟨0x0020, true⟩
  | 99 => ⟨0x2000, true⟩
  | 104 => ⟨0x0400, true⟩
  | 105 => ⟨0x0004, true⟩
  | 110 => ⟨0x0002, true⟩
  | 111 => ⟨0x0001, true⟩
  | 112 => ⟨0x1000, true⟩
  | 114 => ⟨0x0010, true⟩
  | 116 => ⟨0x0200, false⟩
  | 119 => ⟨0x0008, true⟩
  | 120 => ⟨0x0080, true⟩
  | 122 => ⟨0x10000, true⟩
  | _ => ⟨0, false⟩

/-- What `send_umode` reads: `MyClient(sptr)` and `sptr->umode`, `old` and
`sendmask`. -/
structure UmodeCall where
  myClient : Bool
  umode : BitVec 64
  old : BitVec 64
  sendmask : BitVec 64

/-- The loop at `i`, with `what` and the text of `umode_buf`. -/
def umodeChar (c : UmodeCall) (what : Cmode) (buf : List UInt8) (i : Nat) : Cmode × List UInt8 :=
  if !(umodetab i).inUse then (what, buf)
  else
    let flag := (umodetab i).type
    if c.myClient && flag &&& c.sendmask = 0 then (what, buf)
    else if flag &&& c.old ≠ 0 ∧ c.umode &&& flag = 0 then
      if what = .del then (what, buf ++ [UInt8.ofNat i])
      else (.del, buf ++ [0x2d, UInt8.ofNat i])
    else if flag &&& c.old = 0 ∧ c.umode &&& flag ≠ 0 then
      if what = .add then (what, buf ++ [UInt8.ofNat i])
      else (.add, buf ++ [0x2b, UInt8.ofNat i])
    else (what, buf)

/-- `send_umode`: what it leaves in `umode_buf`. -/
def sendUmode (c : UmodeCall) : List UInt8 :=
  ((List.range' 64 63).foldl (fun st i => umodeChar c st.1 st.2 i) (.list, [])).2

end TrIrcd
