import TrIrcd.Src.Hash
import TrIrcd.Lib.Run

/-!
# What the name tables hold

`Indexed hashOf T held` says that table `T` holds exactly the entries `held`,
each in the one bucket its hash names. Adding and deleting keep it so, and a
search of the right bucket is a search among all the entries: one with the
name looked for is in no other bucket (`strhash_congr`). The bucket that is
never searched is the exception the search rules carry as a hypothesis.
-/

namespace TrIrcd

open Function (update)
open TrIrcd.Lib

/-- `T` holds exactly `held`, each entry in the bucket of its hash. -/
def Indexed (hashOf : Nat → Nat) (T : HashTable) (held : List Nat) : Prop :=
  ∃ V, Chains T.buckets V ∧ ∀ i c, c ∈ V i ↔ c ∈ held ∧ hashOf c = i

namespace Indexed

variable {hashOf : Nat → Nat} {T : HashTable} {held : List Nat}

theorem cleared : Indexed hashOf HashTable.cleared [] :=
  ⟨fun _ => [], Chains.empty, fun i c => by simp⟩

theorem mem_iff (h : Indexed hashOf T held) {c : Nat} :
    c ∈ held ↔ ∃ i, c ∈ T.buckets.nodes i := by
  obtain ⟨V, hV, hm⟩ := h
  constructor
  · intro hc
    exact ⟨hashOf c, by rw [hV.nodes]; exact (hm _ c).mpr ⟨hc, rfl⟩⟩
  · rintro ⟨i, hi⟩
    rw [hV.nodes] at hi
    exact ((hm i c).mp hi).1

theorem congr (h : Indexed hashOf T held) {hashOf' : Nat → Nat}
    (he : ∀ c ∈ held, hashOf' c = hashOf c) : Indexed hashOf' T held := by
  obtain ⟨V, hV, hm⟩ := h
  refine ⟨V, hV, fun i c => (hm i c).trans ?_⟩
  exact and_congr_right fun hc => by rw [he c hc]

theorem add (h : Indexed hashOf T held) {c : Nat} (hc : c ∉ held) :
    Indexed hashOf (addToHashTable (hashOf c) c T) (c :: held) := by
  obtain ⟨V, hV, hm⟩ := h
  exact ⟨_, hV.push (fun i hi => hc ((hm i c).mp hi).1) (hashOf c), fun _ _ => mem_push_iff hm⟩

theorem del (h : Indexed hashOf T held) {c : Nat} (hc : c ∈ held)
    (hnd : held.Nodup) :
    (delFromHashTable (hashOf c) c T).1 = true ∧
      Indexed hashOf (delFromHashTable (hashOf c) c T).2 (held.erase c) := by
  obtain ⟨V, hV, hm⟩ := h
  have hin : c ∈ V (hashOf c) := (hm _ c).mpr ⟨hc, rfl⟩
  obtain ⟨B, hB, hch⟩ := hV.unlink hin
  have hmem : ∀ i d, d ∈ update V (hashOf c) ((V (hashOf c)).erase c) i ↔
      d ∈ held.erase c ∧ hashOf d = i := fun _ _ => mem_take_iff hV.nodup hnd hm
  rw [delFromHashTable, hB]
  exact ⟨rfl, _, hch.clearNext fun i hi => hnd.not_mem_erase ((hmem i c).mp hi).1, hmem⟩

theorem del_absent (h : Indexed hashOf T held) {c : Nat} (hc : c ∉ held)
    (i : Nat) : delFromHashTable i c T = (false, T) := by
  obtain ⟨V, hV, hm⟩ := h
  rw [delFromHashTable, hV.unlink_none fun hi => hc ((hm i c).mp hi).1]

end Indexed

/-! ## Searching a table indexed by names -/

section Find

variable {key : UInt32} {nameOf : Nat → List UInt8} {T : HashTable}
  {held : List Nat} {name : List UInt8}

theorem find_zero (h0 : strhash key name = 0) :
    findInHashTable key nameOf name T = none := by
  rw [findInHashTable, h0]
  rfl

theorem find_eq_some
    (h : Indexed (fun c => (strhash key (nameOf c)).toNat) T held) {c : Nat}
    (hf : findInHashTable key nameOf name T = some c) :
    c ∈ held ∧ ircStrcmp name (nameOf c) = 0 := by
  obtain ⟨V, hV, hm⟩ := h
  simp only [findInHashTable] at hf
  split at hf
  · cases hf
  · rw [hV.find] at hf
    refine ⟨((hm _ c).mp (List.mem_of_find?_eq_some hf)).1, ?_⟩
    simpa using List.find?_some hf

theorem find_isSome
    (h : Indexed (fun c => (strhash key (nameOf c)).toNat) T held)
    (h0 : strhash key name ≠ 0) {c : Nat} (hc : c ∈ held)
    (hn : ircStrcmp name (nameOf c) = 0) :
    ∃ d, findInHashTable key nameOf name T = some d := by
  obtain ⟨V, hV, hm⟩ := h
  have hpos : ¬ (strhash key name).toNat ≤ 0 := by
    intro hle
    refine h0 (UInt32.toNat_inj.mp ?_)
    rw [Nat.le_zero.mp hle]
    rfl
  have hin : c ∈ V (strhash key name).toNat :=
    (hm _ c).mpr ⟨hc, by rw [strhash_congr hn]⟩
  simp only [findInHashTable]
  rw [if_neg hpos, hV.find, ← Option.isSome_iff_exists, List.find?_isSome]
  exact ⟨c, hin, by simpa using hn⟩

end Find

/-!
## Looking clients up by name

The client table is used under a discipline: a client enters it under its
name only while it is out of it and no client in it has an equal name, and
its name changes only while it is out. `NameSt.step` is that discipline as a
machine; `present` is the list of clients entered and not since taken out.

After any run `findClient` answers a present client of that name, and every
name that does not hash to bucket 0 is found. A name that does is never
found: `find_client` takes index 0 for the mark of an empty name. So the
lookup is exact for a name precisely when the name avoids bucket 0 or nobody
has it (`findClient_exact_iff`).
-/

structure NameSt where
  clientTable : HashTable
  name : Nat → List UInt8
  present : List Nat

inductive NameOp
  | add (cptr : Nat)
  | del (cptr : Nat)
  | rename (cptr : Nat) (name : List UInt8)

namespace NameSt

/-- The table `clear_client_hash_table` leaves, and clients of any names. -/
def init (name : Nat → List UInt8) : NameSt where
  clientTable := HashTable.cleared
  name := name
  present := []

def step (key : UInt32) (s : NameSt) : NameOp → Except Unit NameSt
  | .add cptr =>
      if cptr ∈ s.present ∨
          ∃ d ∈ s.present, ircStrcmp (s.name cptr) (s.name d) = 0 then .error ()
      else .ok { s with
        clientTable := addToClientHashTable key (s.name cptr) cptr s.clientTable
        present := cptr :: s.present }
  | .del cptr => .ok { s with
      clientTable := (delFromClientHashTable key (s.name cptr) cptr s.clientTable).2
      present := s.present.erase cptr }
  | .rename cptr name =>
      if cptr ∈ s.present then .error ()
      else .ok { s with name := update s.name cptr name }

/-- Lookup of `q` is exact: it answers the present client of that name, and
nothing when there is none. -/
def FindsExactly (key : UInt32) (s : NameSt) (q : List UInt8) : Prop :=
  (∀ c ∈ s.present, ircStrcmp q (s.name c) = 0 →
    findClient key s.name q s.clientTable = some c) ∧
  ((∀ c ∈ s.present, ircStrcmp q (s.name c) ≠ 0) →
    findClient key s.name q s.clientTable = none)

instance (key : UInt32) (s : NameSt) (q : List UInt8) :
    Decidable (FindsExactly key s q) := inferInstanceAs (Decidable (_ ∧ _))

/-- The table holds the present clients, and no two of them share a name. -/
structure Inv (key : UInt32) (s : NameSt) : Prop where
  indexed : Indexed (fun c => (strhash key (s.name c)).toNat) s.clientTable s.present
  nodup : s.present.Nodup
  distinct : ∀ c ∈ s.present, ∀ d ∈ s.present,
    ircStrcmp (s.name c) (s.name d) = 0 → c = d

theorem init_inv (key : UInt32) (name : Nat → List UInt8) : Inv key (init name) :=
  ⟨Indexed.cleared, List.nodup_nil, fun _ h => by cases h⟩

theorem step_inv {key : UInt32} (s : NameSt) (op : NameOp) (s' : NameSt)
    (hI : Inv key s) (hs : step key s op = .ok s') : Inv key s' := by
  cases op with
  | add cptr =>
      simp only [step] at hs
      split at hs
      · cases hs
      · next hfree =>
          cases hs
          obtain ⟨hc, hd⟩ := not_or.mp hfree
          have hnew : ∀ d ∈ s.present, ircStrcmp (s.name cptr) (s.name d) ≠ 0 :=
            fun d hm he => hd ⟨d, hm, he⟩
          refine ⟨hI.indexed.add hc, List.nodup_cons.mpr ⟨hc, hI.nodup⟩, ?_⟩
          intro c hcm d hdm he
          rcases List.mem_cons.mp hcm with hce | hc'
          · rcases List.mem_cons.mp hdm with hde | hd'
            · rw [hce, hde]
            · rw [hce] at he
              exact absurd he (hnew d hd')
          · rcases List.mem_cons.mp hdm with hde | hd'
            · rw [hde] at he
              exact absurd (ircStrcmp_comm he) (hnew c hc')
            · exact hI.distinct c hc' d hd' he
  | del cptr =>
      cases hs
      by_cases hc : cptr ∈ s.present
      · refine ⟨(hI.indexed.del hc hI.nodup).2, hI.nodup.erase _, ?_⟩
        intro c hcm d hdm he
        exact hI.distinct c (List.mem_of_mem_erase hcm) d
          (List.mem_of_mem_erase hdm) he
      · simp only [delFromClientHashTable, hI.indexed.del_absent hc,
          List.erase_of_not_mem hc]
        exact hI
  | rename cptr name =>
      simp only [step] at hs
      split at hs
      · cases hs
      · next hc =>
          cases hs
          have hsame : ∀ c ∈ s.present, update s.name cptr name c = s.name c :=
            fun c hcm => Function.update_of_ne (fun e => hc (by rw [← e]; exact hcm)) ..
          refine ⟨hI.indexed.congr fun c hcm => ?_, hI.nodup, ?_⟩
          · show (strhash key (update s.name cptr name c)).toNat = _
            rw [hsame c hcm]
          · intro c hcm d hdm he
            refine hI.distinct c hcm d hdm ?_
            rw [← hsame c hcm, ← hsame d hdm]
            exact he

/-- A present client is found under any spelling of its name that does not
hash to bucket 0. -/
theorem Inv.find_present {key : UInt32} {s : NameSt} (hI : Inv key s)
    {q : List UInt8} (h0 : strhash key q ≠ 0) {c : Nat} (hc : c ∈ s.present)
    (hn : ircStrcmp q (s.name c) = 0) :
    findClient key s.name q s.clientTable = some c := by
  obtain ⟨d, hd⟩ := find_isSome hI.indexed h0 hc hn
  obtain ⟨hdm, hdn⟩ := find_eq_some hI.indexed hd
  rw [hI.distinct c hc d hdm (ircStrcmp_trans hn hdn)]
  exact hd

theorem Inv.find_absent {key : UInt32} {s : NameSt} (hI : Inv key s)
    {q : List UInt8} (hn : ∀ c ∈ s.present, ircStrcmp q (s.name c) ≠ 0) :
    findClient key s.name q s.clientTable = none := by
  cases hf : findClient key s.name q s.clientTable with
  | none => rfl
  | some d =>
      obtain ⟨hdm, hdn⟩ := find_eq_some hI.indexed hf
      exact absurd hdn (hn d hdm)

/-- After any run, looking up a name is exact if and only if the name does
not hash to bucket 0 or no present client has it. -/
theorem findClient_exact_iff (key : UInt32) (name : Nat → List UInt8)
    (ops : List NameOp) (s : NameSt)
    (hr : run (step key) (init name) ops = .ok s) (q : List UInt8)
    (_hq : cstr q ≠ []) :
    FindsExactly key s q ↔
      (strhash key q ≠ 0 ∨ ∀ c ∈ s.present, ircStrcmp q (s.name c) ≠ 0) := by
  have hI : Inv key s := run_invariant step_inv ops (init_inv key name) hr
  constructor
  · intro hx
    by_cases h0 : strhash key q = 0
    · refine Or.inr fun c hc hn => ?_
      have hf := hx.1 c hc hn
      rw [findClient, find_zero h0] at hf
      cases hf
    · exact Or.inl h0
  · rintro (h0 | hno)
    · exact ⟨fun c hc hn => hI.find_present h0 hc hn, hI.find_absent⟩
    · exact ⟨fun c hc hn => absurd hn (hno c hc), hI.find_absent⟩

/-- The nickname `vav`, which hashes to bucket 0 under key 0. -/
def vav : List UInt8 := [0x76, 0x61, 0x76]

/-- One client of that name enters the empty table, and is not found. -/
theorem findClient_misses_bucket_zero :
    ∃ s, run (step 0) (init fun _ => vav) [.add 0] = .ok s ∧
      cstr vav ≠ [] ∧ ¬ FindsExactly 0 s vav :=
  ⟨_, rfl, by decide, by decide⟩

/-- The theorem at a client that is found: `emg`, with `EMG` looked up. -/
theorem findClient_exact_emg :
    ∃ s, run (step 0) (init fun _ => [0x65, 0x6d, 0x67]) [.add 0] = .ok s ∧
      FindsExactly 0 s [0x45, 0x4d, 0x47] :=
  ⟨_, rfl, (findClient_exact_iff 0 _ [.add 0] _ rfl _ (by decide)).mpr
    (Or.inl (by decide))⟩

end NameSt

end TrIrcd
