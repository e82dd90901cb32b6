import TrIrcd.Src.Hash
import TrIrcd.Src.Mask

/-!
# `src/channel.c` and `src/send.c`: the list of the channels

`send_list` goes through the buckets of the channel table and sends a line for
every channel that the options of `/list` let through. It leaves off when the
send queue of the client is half full, and keeps the number of the bucket it
is at in `starthash`.

`send_queued` goes on with the list if `starthash` is not zero. It is called
when the client can be written to, and at the end of `send_message`: so every
line that `send_list` sends calls it, and it may call `send_list` anew. Fuel
bounds the depth of these calls; without fuel there is no outcome.

What `will_exceed_sendq` says is a sequence of answers, as it depends on how
fast the client reads. The address of a channel is a number.
-/

namespace TrIrcd

/-- `MODE_PRIVATE` -/
def modePrivate : Nat := 0x1

/-- `MODE_SECRET` -/
def modeSecret : Nat := 0x2

/-- `aChannel`, as far as the list reads it. -/
structure ListChannel where
  chptr : Nat
  chname : List UInt8
  mode : Nat
  users : Int
  tsval : Int
  topic : List UInt8
  topicTime : Int
  deriving DecidableEq, Repr

/-- `aClient`, as far as the list reads it. -/
structure ListClient where
  /-- `user->channel` -/
  channel : List Nat
  /-- `IsSeeHidden` -/
  seeHidden : Bool
  deriving DecidableEq, Repr

/-- `LOpts` -/
structure LOpts where
  yeslist : List (List UInt8)
  nolist : List (List UInt8)
  starthash : Nat
  showall : Bool
  usermin : UInt16
  usermax : Int
  chantimemin : Int
  chantimemax : Int
  topictimemin : Int
  topictimemax : Int
  deriving DecidableEq, Repr

/-- `SecretChannel` -/
def ListChannel.isSecret (c : ListChannel) : Bool := decide (c.mode &&& modeSecret ≠ 0)

/-- `PubChannel` -/
def ListChannel.isPub (c : ListChannel) : Bool :=
  decide (c.mode &&& (modePrivate ||| modeSecret) = 0)

/-- `IsMember` -/
def ListClient.isMember (cptr : ListClient) (c : ListChannel) : Bool := cptr.channel.contains c.chptr

/-- `ShowChannel` -/
def ListClient.showChannel (cptr : ListClient) (c : ListChannel) : Bool :=
  c.isPub || cptr.isMember c

/-- What the client gets: a line about a channel, or the end of the list. -/
inductive ListReply
  | list (chptr : Nat) (name : List UInt8) (users : Int) (topic : List UInt8)
  | listEnd
  deriving DecidableEq, Repr

/-- `RPL_LIST` -/
def rplList (cptr : ListClient) (c : ListChannel) : ListReply :=
  .list c.chptr (if cptr.showChannel c then c.chname else [0x2a]) c.users
    (if cptr.showChannel c then c.topic else [])

/-- `find_str_link` -/
def findStrLink (lptr : List (List UInt8)) (charptr : List UInt8) : Option (List UInt8) :=
  lptr.find? fun mask => ircMatch mask charptr = 0

/-- `||` -/
def logicalOr (a b : Int) : Int := if a ≠ 0 ∨ b ≠ 0 then 1 else 0

/-- The tests by which `send_list` passes over a channel. -/
def listSkips (cptr : ListClient) (lopt : LOpts) (c : ListChannel) : Bool :=
  (c.isSecret && !cptr.isMember c && !cptr.seeHidden) ||
    (!lopt.showall &&
      (decide (c.users < lopt.usermin.toNat) ||
        (decide (lopt.usermax ≥ 0) && decide (c.users > lopt.usermax)) ||
        decide (logicalOr c.tsval 1 < lopt.chantimemin) ||
        decide (c.topicTime < lopt.topictimemin) ||
        decide (c.tsval > lopt.chantimemax) ||
        decide (c.topicTime > lopt.topictimemax) ||
        (!lopt.nolist.isEmpty && (findStrLink lopt.nolist c.chname).isSome) ||
        (!lopt.yeslist.isEmpty && (findStrLink lopt.yeslist c.chname).isNone)))

/-- The channel table; a channel is in it once. -/
structure ChannelTable where
  bucket : List (List ListChannel)
  size : bucket.length = hashSize
  nodup : (bucket.flatten.map ListChannel.chptr).Nodup

/-- What stays the same while a client gets its list. -/
structure ListEnv where
  cptr : ListClient
  table : ChannelTable
  /-- The answers of `will_exceed_sendq`. -/
  exceeds : Nat → Bool

/-- The options, how often `will_exceed_sendq` was asked, and what was sent. -/
structure ListSt where
  lopt : LOpts
  asked : Nat
  out : List ListReply
  deriving DecidableEq, Repr

namespace ListSt

/-- `lopt->starthash = hashnum` -/
def setStart (hashnum : Nat) (st : ListSt) : ListSt :=
  { st with lopt := { st.lopt with starthash := hashnum } }

/-- A call of `will_exceed_sendq`. -/
def ask (st : ListSt) : ListSt := { st with asked := st.asked + 1 }

/-- A line is put on the send queue. -/
def put (reply : ListReply) (st : ListSt) : ListSt := { st with out := st.out ++ [reply] }

/-- The end of `send_list`. -/
def clear (st : ListSt) : ListSt :=
  { st with lopt := { st.lopt with yeslist := [], nolist := [], starthash := 0 } }

end ListSt

namespace ListEnv

/-- The inner loop of `send_list`, and whether it returns from there. The
parameter is `send_queued`. -/
def chanLoop (E : ListEnv) (sendQueued : ListSt → Option ListSt) (hashnum : Nat) :
    List ListChannel → ListSt → Option (Bool × ListSt)
  | [], st => some (false, st)
  | chptr :: hnextch, st =>
      let st := st.setStart hashnum
      if listSkips E.cptr st.lopt chptr then chanLoop E sendQueued hashnum hnextch st
      else if E.exceeds st.asked then some (true, st.ask)
      else
        (sendQueued (st.ask.put (rplList E.cptr chptr))).bind
          (chanLoop E sendQueued hashnum hnextch)

/-- The outer loop of `send_list`. -/
def bucketLoop (E : ListEnv) (sendQueued : ListSt → Option ListSt) :
    Nat → List (List ListChannel) → ListSt → Option (Bool × ListSt)
  | _, [], st => some (false, st)
  | hashnum, bucket :: rest, st =>
      (chanLoop E sendQueued hashnum bucket st).bind fun (stop, st) =>
        if stop then some (true, st) else bucketLoop E sendQueued (hashnum + 1) rest st

/-- What `send_list` does after its loops. -/
def listFinish (sendQueued : ListSt → Option ListSt) : Bool × ListSt → Option ListSt
  | (stop, st) => if stop then some st else (sendQueued (st.put .listEnd)).map ListSt.clear

/-- `send_list`, on top of `send_queued`. -/
def sendListBody (E : ListEnv) (sendQueued : ListSt → Option ListSt) (st : ListSt) :
    Option ListSt :=
  (bucketLoop E sendQueued st.lopt.starthash (E.table.bucket.drop st.lopt.starthash) st).bind
    (listFinish sendQueued)

/-- `send_queued`, for a client whose queue could be flushed. -/
def sendQueued (E : ListEnv) : Nat → ListSt → Option ListSt
  | 0, _ => none
  | fuel + 1, st =>
      if st.lopt.starthash ≠ 0 then sendListBody E (sendQueued E fuel) st else some st

/-- `send_list` -/
def sendList (E : ListEnv) (fuel : Nat) : ListSt → Option ListSt :=
  sendListBody E (sendQueued E fuel)

/-- `send_queued`, a number of times. -/
def listRounds (E : ListEnv) (fuel : Nat) : Nat → ListSt → Option ListSt
  | 0, st => some st
  | n + 1, st => (sendQueued E fuel st).bind (listRounds E fuel n)

/-- A list is asked for, and is gone on with. -/
def listing (E : ListEnv) (fuel n : Nat) (lopt : LOpts) : Option ListSt :=
  (sendList E fuel ⟨{ lopt with starthash := 0 }, 0, []⟩).bind (listRounds E fuel n)

end ListEnv

end TrIrcd
