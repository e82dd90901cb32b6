import TrIrcd.Src.Hash
import TrIrcd.Src.Tools

/-!
# `src/watch.c`: the watch lists

`watchTable` chains one `aWatch` for every nick somebody watches. An entry
lists the clients that watch it and a client lists the entries it watches, in
dlink lists whose nodes come from one heap: a node's data is the address of a
client in the first kind of list and of an entry in the second. The count of
its watches that a client keeps is an `int`, and to pass `INT_MAX` is an
outcome.
-/

namespace TrIrcd

open Function (update)
open TrIrcd.Lib

/-- `WATCHHASHSIZE` -/
def watchHashSize : Nat := 10007

/-- The loop of `hash_nick_name`. -/
def hashNickNameLoop (h : UInt32) : List UInt8 → UInt32
  | [] => h
  | c :: name => hashNickNameLoop ((h <<< 4) - (h + (toLower c).toUInt32)) name

/-- `hash_nick_name` -/
def hashNickName (name : List UInt8) : Nat :=
  (hashNickNameLoop 0 (cstr name) &&& 0xffff).toNat

/-- The dlink lists: `watched_by` of an entry and `watchlist` of a client. -/
inductive WatchList
  | watchedBy (awptr : Nat)
  | watchlist (cptr : Nat)
deriving DecidableEq

/-- `watchTable` and the fields of its entries, the entries `MyMalloc` handed
out, the dlink lists, and the `watches` of every client. -/
structure WatchSt where
  watchTable : Buckets Nat Nat
  watchnick : Nat → List UInt8
  lasttime : Nat → Int
  entries : List Nat
  dlinks : Dlinks WatchList Nat
  watches : Nat → Int

inductive WatchFault
  | intOverflow
deriving DecidableEq

namespace WatchSt

/-- `clear_watch_hash_table`, before any client. -/
def cleared : WatchSt where
  watchTable := Buckets.empty
  watchnick _ := []
  lasttime _ := 0
  entries := []
  dlinks := Dlinks.empty 0
  watches _ := 0

/-- The search for a nick in its bucket: the entry before the one found, and
the one found. -/
def seek (hashv : Nat) (nick : List UInt8) (s : WatchSt) : Option Nat × Option Nat :=
  s.watchTable.seek hashv fun awptr => ircStrcmp (s.watchnick awptr) nick = 0

/-- A new entry in front of its bucket. -/
def newEntry (M : Allocator) (timeofday : Int) (hashv : Nat) (nick : List UInt8)
    (s : WatchSt) : Nat × WatchSt :=
  let awptr := M.pick s.entries
  (awptr, { s with
    entries := awptr :: s.entries
    lasttime := update s.lasttime awptr timeofday
    watchnick := update s.watchnick awptr ((cstr nick).take nickLen)
    dlinks := clearDlinkList (.watchedBy awptr) s.dlinks
    watchTable := s.watchTable.push hashv awptr })

/-- The entry and the client get on each other's list. -/
def link (A : Allocator) (awptr cptr : Nat) (s : WatchSt) : Except WatchFault WatchSt :=
  let dlinks := dlinkAddNew A cptr (.watchedBy awptr) s.dlinks
  let dlinks := dlinkAddNew A awptr (.watchlist cptr) dlinks
  let watches := s.watches cptr + 1
  if watches ≤ intMax then
    .ok { s with dlinks := dlinks, watches := update s.watches cptr watches }
  else .error .intOverflow

/-- `add_to_watch_hash_table` -/
def addToWatchHashTable (M A : Allocator) (timeofday : Int) (nick : List UInt8)
    (cptr : Nat) (s : WatchSt) : Except WatchFault WatchSt :=
  if nickLen < (cstr nick).length then .ok s
  else
    let hashv := hashNickName nick % watchHashSize
    if hashv ≤ 0 then .ok s
    else
      match (s.seek hashv nick).2 with
      | none =>
          let (awptr, s) := s.newEntry M timeofday hashv nick
          s.link A awptr cptr
      | some awptr =>
          match dlinkFind (.watchedBy awptr) (· = cptr) s.dlinks with
          | some _ => .ok s
          | none => s.link A awptr cptr

/-- `hash_get_watch` -/
def hashGetWatch (name : List UInt8) (s : WatchSt) : Option Nat :=
  let hashv := hashNickName name % watchHashSize
  if hashv ≤ 0 then none else (s.seek hashv name).2

/-- An entry nobody watches any more, which stands after `nlast`, is freed. -/
def dropEntry (hashv : Nat) (nlast : Option Nat) (awptr : Nat) (s : WatchSt) : WatchSt :=
  match s.dlinks.head (.watchedBy awptr) with
  | some _ => s
  | none =>
      { s with
        watchTable := s.watchTable.unlinkAfter hashv nlast awptr
        entries := s.entries.erase awptr }

/-- `del_from_watch_hash_table` -/
def delFromWatchHashTable (nick : List UInt8) (cptr : Nat) (s : WatchSt) : WatchSt :=
  let hashv := hashNickName nick % watchHashSize
  if hashv ≤ 0 then s
  else
    match s.seek hashv nick with
    | (_, none) => s
    | (nlast, some awptr) =>
        match dlinkFind (.watchedBy awptr) (· = cptr) s.dlinks with
        | none => s
        | some lp =>
            let dlinks := dlinkDeleteNode lp (.watchedBy awptr) s.dlinks
            let dlinks := dlinkDeleteFirst (.watchlist cptr) (· = awptr) dlinks
            let s := dropEntry hashv nlast awptr { s with dlinks := dlinks }
            { s with watches := update s.watches cptr (s.watches cptr - 1) }

/-- The loop of `hash_del_watch_list` from node `ptr` on. -/
def hashDelWatchLoop (cptr : Nat) : Nat → Option Nat → WatchSt → WatchSt
  | 0, _, s => s
  | _ + 1, none, s => s
  | fuel + 1, some ptr, s =>
      let nextPtr := s.dlinks.next ptr
      let awptr := s.dlinks.data ptr
      let s := { s with
        dlinks := dlinkDeleteFirst (.watchedBy awptr) (· = cptr) s.dlinks }
      let hashv := hashNickName (s.watchnick awptr) % watchHashSize
      let awptr3 := (s.watchTable.seek hashv (· = awptr)).1
      let s := dropEntry hashv awptr3 awptr s
      hashDelWatchLoop cptr fuel nextPtr { s with
        dlinks := dlinkDeleteNode ptr (.watchlist cptr) s.dlinks }

/-- `hash_del_watch_list`; the loop visits nodes that are handed out. -/
def hashDelWatchList (cptr : Nat) (s : WatchSt) : WatchSt :=
  match s.dlinks.head (.watchlist cptr) with
  | none => s
  | some ptr =>
      let s := hashDelWatchLoop cptr s.dlinks.used.length (some ptr) s
      { s with watches := update s.watches cptr 0 }

end WatchSt

/-! ## The hash -/

theorem hashNickNameLoop_map_toUpper (name : List UInt8) : ∀ h : UInt32,
    hashNickNameLoop h (name.map toUpper) = hashNickNameLoop h name := by
  induction name with
  | nil => exact fun _ => rfl
  | cons c name ih =>
      intro h
      rw [List.map_cons, hashNickNameLoop, hashNickNameLoop, toLower_toUpper, ih]

/-- Nicks that `irc_strcmp` does not tell apart have the same hash value. -/
theorem hashNickName_congr {s1 s2 : List UInt8} (h : foldName s1 = foldName s2) :
    hashNickName s1 = hashNickName s2 := by
  rw [hashNickName, hashNickName, ← hashNickNameLoop_map_toUpper (cstr s1),
    ← hashNickNameLoop_map_toUpper (cstr s2)]
  exact congrArg (fun name => (hashNickNameLoop 0 name &&& 0xffff).toNat) h

end TrIrcd
