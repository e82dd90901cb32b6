import TrIrcd.Lib.Dlist
import TrIrcd.Src.Mask
import TrIrcd.Src.Parse

/-!
# `src/client.c` and `server/s_query.c`: clients that match a mask

`next_client` is the step of a loop over the list of clients, and looks the
mask up as a name first. `hunt_server` finds whom a message that names a
server is for, with two lookups by name, and with that loop when the name is a
mask, and sends it on.

Loops over the list run on the number of clients. The loop of a caller of
`next_client` may not end, so it runs on fuel it is given and `none` is the
answer when that is used up. What `hunt_server` answers comes with what it
sends: `HUNTED_PASS` with the client, the word of the command and the
parameters, `HUNTED_NOSUCH` with the parameter of the numeric.
-/

namespace TrIrcd

open TrIrcd.Lib

/-- The list of clients and the table of their names. -/
structure ClientList where
  globalClientList : Option Nat
  next : Nat → Option Nat
  prev : Nat → Option Nat
  name : Nat → List UInt8
  clientTable : HashTable
  ircdRandomKey : UInt32
  count : Nat

namespace ClientList

variable (S : ClientList)

/-- `find_client` -/
def find (ch : List UInt8) : Option Nat :=
  findClient S.ircdRandomKey S.name ch S.clientTable

/-- `next_client` -/
def nextClient (ch : List UInt8) (next : Option Nat) : Option Nat :=
  let tmp := next
  let next := S.find ch
  let next := if next = none then tmp else next
  if tmp ≠ none ∧ tmp.bind S.prev = next then none
  else if next ≠ tmp then next
  else findFrom S.next (fun next => ircMatch ch (S.name next) = 0) S.count next

/-- `next_client_double` -/
def nextClientDouble (ch : List UInt8) (next : Option Nat) : Option Nat :=
  let tmp := next
  let next := S.find ch
  if tmp ≠ none ∧ tmp.bind S.prev = next then none
  else if next ≠ tmp then next
  else
    findFrom S.next
      (fun next => ircMatch ch (S.name next) = 0 ∨ ircMatch (S.name next) ch = 0)
      S.count next

/-- The usage loop in the comment on `next_client`: the clients it handles. -/
def usageLoop (nextClient : Option Nat → Option Nat) : Nat → Option Nat → Option (List Nat)
  | 0, _ => none
  | fuel + 1, x =>
      match nextClient x with
      | none => some []
      | some x => (usageLoop nextClient fuel (S.next x)).map (x :: ·)

end ClientList

/-- What `hunt_server` looks at; `source` is the pointer `from`. -/
structure HuntSt extends ClientList where
  me : Nat
  fd : Nat → Int
  source : Nat → Nat
  status : Nat → Int
  /-- `IsToken1` -/
  isToken1 : Nat → Bool

/-- `HUNTED_ISME`, `HUNTED_NOSUCH` and `HUNTED_PASS`. -/
inductive Hunted
  | isMe
  | noSuch (server : List UInt8)
  | pass (acptr : Nat) (command : List UInt8) (parv : List (List UInt8))
deriving DecidableEq, Repr

namespace HuntSt

variable (S : HuntSt)

/-- `MyConnect` -/
def MyConnect (x : Nat) : Prop := 0 ≤ S.fd x

/-- `MyClient` -/
def MyClient (x : Nat) : Prop := S.MyConnect x ∧ S.status x = statClient

/-- `IsMe` -/
def IsMe (x : Nat) : Prop := S.status x = statMe

/-- `IsServer` -/
def IsServer (x : Nat) : Prop := S.status x = statServer

/-- `IsRegistered` -/
def IsRegistered (x : Nat) : Prop := statServer ≤ S.status x

instance (x : Nat) : Decidable (S.MyConnect x) := inferInstanceAs (Decidable (_ ≤ _))
instance (x : Nat) : Decidable (S.MyClient x) := inferInstanceAs (Decidable (_ ∧ _))
instance (x : Nat) : Decidable (S.IsMe x) := inferInstanceAs (Decidable (_ = _))
instance (x : Nat) : Decidable (S.IsServer x) := inferInstanceAs (Decidable (_ = _))
instance (x : Nat) : Decidable (S.IsRegistered x) := inferInstanceAs (Decidable (_ ≤ _))

/-- `find_server` -/
def findServer (server : List UInt8) : Option Nat :=
  let hashv := (strhash S.ircdRandomKey server).toNat
  if hashv ≤ 0 then none
  else S.clientTable.buckets.find hashv fun tmp =>
    (S.IsServer tmp ∨ S.IsMe tmp) ∧ ircStrcmp server (S.name tmp) = 0

/-- A client found is forgotten if the message would go back to it. -/
def forward (sptr : Nat) (acptr : Option Nat) : Option Nat :=
  acptr.filter fun acptr => ¬(S.source acptr = S.source sptr ∧ ¬S.MyConnect acptr)

/-- The loop over the clients that match; `none` while it has not ended. -/
def wildLoop (cptr sptr : Nat) (ch : List UInt8) : Nat → Option Nat → Option (Option Nat)
  | 0, _ => none
  | fuel + 1, acptr =>
      match S.nextClient ch acptr with
      | none => some none
      | some acptr =>
          if S.source acptr = S.source sptr ∧ ¬S.MyConnect acptr then
            wildLoop cptr sptr ch fuel (S.next acptr)
          -- Fix to prevent looping in case the parameter for some
          -- reason happens to match someone from the from link.
          else if S.IsRegistered acptr ∧ acptr ≠ cptr then some (some acptr)
          else wildLoop cptr sptr ch fuel (S.next acptr)

/-- The end of `hunt_server`, with the client found if there is one. -/
def passOn (tok1Msgtab : UInt8 → List UInt8) (token : List UInt8) (server : Nat)
    (parv : List (List UInt8)) : Option Nat → Hunted
  | none => .noSuch (parv.getD server [])
  | some acptr =>
      if S.IsMe acptr ∨ S.MyClient acptr then .isMe
      else
        let parv :=
          if ircMatch (S.name acptr) (parv.getD server []) ≠ 0 then
            parv.set server (S.name acptr)
          else parv
        .pass acptr
          (if S.isToken1 (S.source acptr) then token else tok1Msgtab (token.headD 0)) parv

/-- `hunt_server` -/
def huntServer (fuel : Nat) (tok1Msgtab : UInt8 → List UInt8) (cptr sptr : Nat)
    (token : List UInt8) (server parc : Nat) (parv : List (List UInt8)) : Option Hunted :=
  let name := parv.getD server []
  if parc ≤ server ∨ cstr name = [] ∨ ircMatch (S.name S.me) name = 0 ∨
      ircMatch name (S.name S.me) = 0 then some .isMe
  else
    let acptr := S.forward sptr (S.find name)
    let acptr := if acptr = none then S.forward sptr (S.findServer name) else acptr
    let name := collapse name
    let parv := parv.set server name
    let wilds := 0x3f ∈ name ∨ 0x2a ∈ name
    if acptr = none then
      if ¬wilds then
        match S.findServer name with
        | none => some (.noSuch name)
        | some acptr =>
            if ¬S.IsRegistered acptr ∨ ¬S.IsServer acptr then some (.noSuch name)
            else some (S.passOn tok1Msgtab token server parv (some acptr))
      else
        (S.wildLoop cptr sptr name fuel S.globalClientList).map
          (S.passOn tok1Msgtab token server parv)
    else some (S.passOn tok1Msgtab token server parv acptr)

end HuntSt

end TrIrcd
