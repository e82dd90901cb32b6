import TrIrcd.Lib.Buckets
import TrIrcd.Src.Match

/-!
# `src/hash.c`: the name tables

`clientTable` and `channelTable` are two chained tables of the same shape,
indexed by `strhash` of a name and chained through `hnext` and `hnextch`. A
bucket also counts its links and the entries ever put in it. The functions
take the table they work on; `ircdRandomKey` is the byte that
`clear_client_hash_table` draws once, before any name is hashed.
-/

namespace TrIrcd

open Function (update)
open TrIrcd.Lib

/-- One turn of the loop of `strhash`. -/
def strhashStep (ircdRandomKey hval : UInt32) (p : UInt8) : UInt32 :=
  let hval := hval +
    ((hval <<< 1) + (hval <<< 4) + (hval <<< 7) + (hval <<< 8) + (hval <<< 24))
  hval ^^^ ((toLower p).toUInt32 ^^^ ircdRandomKey)

/-- `strhash` -/
def strhash (ircdRandomKey : UInt32) (name : List UInt8) : UInt32 :=
  if cstr name = [] then 0
  else
    let hval := (cstr name).foldl (strhashStep ircdRandomKey) 0x811c9dc5
    (hval >>> 16) ^^^ (hval &&& 0xffff)

/-- `NICKLEN` -/
def nickLen : Nat := 30

/-- `HASHSIZE` -/
def hashSize : Nat := 0x10000

/-- A table with the counters of its buckets. -/
structure HashTable where
  buckets : Buckets Nat Nat
  hits : Nat → Nat
  links : Nat → Nat

/-- `clear_client_hash_table` and `clear_channel_hash_table`. -/
def HashTable.cleared : HashTable where
  buckets := Buckets.empty
  hits _ := 0
  links _ := 0

/-- The common body of `add_to_client_hash_table` and
`add_to_channel_hash_table`. -/
def addToHashTable (hashv ptr : Nat) (T : HashTable) : HashTable where
  buckets := T.buckets.push hashv ptr
  links := update T.links hashv (T.links hashv + 1)
  hits := update T.hits hashv (T.hits hashv + 1)

/-- The common body of `del_from_client_hash_table` and
`del_from_channel_hash_table`; the flag is the value returned. -/
def delFromHashTable (hashv ptr : Nat) (T : HashTable) : Bool × HashTable :=
  match T.buckets.unlink hashv ptr with
  | some buckets =>
      (true, { T with
        buckets := buckets.clearNext ptr
        links := if 0 < T.links hashv
          then update T.links hashv (T.links hashv - 1) else T.links })
  | none => (false, T)

/-- The common body of `find_client` and `find_channel`. Bucket 0 is never
searched: `hashv <= 0` is meant for the empty name, which hashes to 0. -/
def findInHashTable (ircdRandomKey : UInt32) (nameOf : Nat → List UInt8)
    (name : List UInt8) (T : HashTable) : Option Nat :=
  let hashv := (strhash ircdRandomKey name).toNat
  if hashv ≤ 0 then none
  else T.buckets.find hashv fun tmp => ircStrcmp name (nameOf tmp) = 0

/-- `add_to_client_hash_table` -/
def addToClientHashTable (ircdRandomKey : UInt32) (name : List UInt8)
    (cptr : Nat) (clientTable : HashTable) : HashTable :=
  addToHashTable (strhash ircdRandomKey name).toNat cptr clientTable

/-- `del_from_client_hash_table` -/
def delFromClientHashTable (ircdRandomKey : UInt32) (name : List UInt8)
    (cptr : Nat) (clientTable : HashTable) : Bool × HashTable :=
  delFromHashTable (strhash ircdRandomKey name).toNat cptr clientTable

/-- `find_client` -/
def findClient (ircdRandomKey : UInt32) (clientName : Nat → List UInt8)
    (name : List UInt8) (clientTable : HashTable) : Option Nat :=
  findInHashTable ircdRandomKey clientName name clientTable

/-- `add_to_channel_hash_table` -/
def addToChannelHashTable (ircdRandomKey : UInt32) (name : List UInt8)
    (chptr : Nat) (channelTable : HashTable) : HashTable :=
  addToHashTable (strhash ircdRandomKey name).toNat chptr channelTable

/-- `del_from_channel_hash_table` -/
def delFromChannelHashTable (ircdRandomKey : UInt32) (name : List UInt8)
    (chptr : Nat) (channelTable : HashTable) : Bool × HashTable :=
  delFromHashTable (strhash ircdRandomKey name).toNat chptr channelTable

/-- `find_channel` -/
def findChannel (ircdRandomKey : UInt32) (chname : Nat → List UInt8)
    (name : List UInt8) (channelTable : HashTable) : Option Nat :=
  findInHashTable ircdRandomKey chname name channelTable

/-- Every bucket `strhash` names exists. -/
theorem strhash_lt (ircdRandomKey : UInt32) (name : List UInt8) :
    (strhash ircdRandomKey name).toNat < hashSize := by
  rw [strhash]
  split
  · decide
  · rw [UInt32.toNat_xor, UInt32.toNat_shiftRight, UInt32.toNat_and]
    refine Nat.xor_lt_two_pow (n := 16) ?_ ?_
    · rw [Nat.shiftRight_eq_div_pow]
      have := UInt32.toNat_lt
        ((cstr name).foldl (strhashStep ircdRandomKey) 0x811c9dc5)
      have h16 : (16 : UInt32).toNat % 32 = 16 := rfl
      rw [h16]
      omega
    · exact Nat.lt_of_le_of_lt Nat.and_le_right (by decide)

theorem foldl_strhashStep_congr {ircdRandomKey : UInt32} :
    ∀ {s1 s2 : List UInt8} {v : UInt32}, s1.map toLower = s2.map toLower →
      s1.foldl (strhashStep ircdRandomKey) v =
        s2.foldl (strhashStep ircdRandomKey) v := by
  intro s1
  induction s1 with
  | nil =>
      intro s2 v h
      rw [List.map_nil] at h
      rw [List.map_eq_nil_iff.mp h.symm]
  | cons c s1 ih =>
      intro s2 v h
      cases s2 with
      | nil => cases h
      | cons d s2 =>
          simp only [List.map_cons, List.cons.injEq] at h
          simp only [List.foldl_cons]
          have hstep : strhashStep ircdRandomKey v c =
              strhashStep ircdRandomKey v d := by
            simp only [strhashStep, h.1]
          rw [hstep]
          exact ih h.2

/-- Names that `irc_strcmp` does not tell apart share a bucket. -/
theorem strhash_congr {ircdRandomKey : UInt32} {s1 s2 : List UInt8}
    (h : ircStrcmp s1 s2 = 0) :
    strhash ircdRandomKey s1 = strhash ircdRandomKey s2 := by
  have hu := ircStrcmp_eq_zero.mp h
  have hl : (cstr s1).map toLower = (cstr s2).map toLower := by
    have hcomp : toLower = toLower ∘ toUpper :=
      funext fun c => (toLower_toUpper c).symm
    rw [hcomp, ← List.map_map, ← List.map_map, hu]
  have hnil : cstr s1 = [] ↔ cstr s2 = [] := by
    rw [← List.map_eq_nil_iff (f := toUpper), hu, List.map_eq_nil_iff]
  simp only [strhash, hnil, foldl_strhashStep_congr hl]

end TrIrcd
