import TrIrcd.Lib.Chain
import TrIrcd.Lib.Keyed
import TrIrcd.Src.Throttle
import Mathlib.Data.List.Nodup

/-!
# What the throttle table knows of a host

`find host s` is the record that `throttle_check` would find, and it is all
that the answers depend on. `Inv` says that the table and the list hold the
same records, one for each host. Under it every operation is one line about
`find`: an insertion and an update concern one host, a removal empties one, a
timer keeps what is not over, and a resize, which rebuilds every bucket,
changes nothing.
-/

namespace TrIrcd

open Function (update)
open TrIrcd.Lib

theorem hashGetKeyHash_cstr (size : Nat) (key : List UInt8) :
    hashGetKeyHash size (cstr key) = hashGetKeyHash size key := by
  rw [hashGetKeyHash, hashGetKeyHash, cstr_cstr]

namespace ThrottleSt

/-- The record of a host. -/
def find (host : List UInt8) (s : ThrottleSt) : Option Throttle :=
  (s.hashFind host).map s.record

/-- What stands after the NUL of a host is not looked at. -/
theorem find_of_cstr {s : ThrottleSt} {host other : List UInt8} (h : cstr host = cstr other) :
    s.find host = s.find other := by
  rw [find, find, hashFind, hashFind, ← hashGetKeyHash_cstr, h, hashGetKeyHash_cstr]

/-- The table holds the records of the list, each in its bucket, and no two of
them are for the same host. -/
structure Inv (s : ThrottleSt) : Prop where
  size : s.size = 0 → s.throttles = []
  mem_table : ∀ i x, x ∈ s.table i ↔
    x ∈ s.throttles ∧ hashGetKeyHash s.size (s.record x).addr = i
  nodup_table : ∀ i, (s.table i).Nodup
  nodup : s.throttles.Nodup
  distinct : Keyed (fun x => (s.record x).addr) s.throttles
  addr : ∀ x ∈ s.throttles, cstr (s.record x).addr = (s.record x).addr

theorem init_inv : Inv init where
  size h := by cases h
  mem_table i x := by simp [init]
  nodup_table i := List.nodup_nil
  nodup := List.nodup_nil
  distinct := Keyed.nil
  addr x hx := by cases hx

namespace Inv

variable {s s' : ThrottleSt}

theorem hashFind_iff (hI : Inv s) {host : List UInt8} {x : Nat} :
    s.hashFind host = some x ↔ x ∈ s.throttles ∧ (s.record x).addr = cstr host := by
  constructor
  · intro h
    obtain ⟨hx, hk⟩ := find?_key_some h
    have hx := ((hI.mem_table _ _).mp hx).1
    exact ⟨hx, by rw [← hI.addr x hx, hk]⟩
  · rintro ⟨hx, hk⟩
    have hd : Keyed (fun x => cstr (s.record x).addr)
        (s.table (hashGetKeyHash s.size host)) := by
      refine (hI.nodup_table _).imp_of_mem fun {a b} ha hb hne he => hne ?_
      have ha := ((hI.mem_table _ _).mp ha).1
      have hb := ((hI.mem_table _ _).mp hb).1
      simp only [hI.addr a ha, hI.addr b hb] at he
      exact hI.distinct.eq_of_mem ha hb he
    have hin : x ∈ s.table (hashGetKeyHash s.size host) :=
      (hI.mem_table _ _).mpr ⟨hx, by rw [hk, hashGetKeyHash_cstr]⟩
    have hf := hd.find? hin
    simp only [hk, cstr_cstr] at hf
    exact hf

theorem find_iff (hI : Inv s) {host : List UInt8} {r : Throttle} :
    s.find host = some r ↔
      ∃ x ∈ s.throttles, (s.record x).addr = cstr host ∧ s.record x = r := by
  simp only [find, Option.map_eq_some_iff, hI.hashFind_iff, and_assoc]

/-- Two states with the same records of a host find the same. -/
theorem find_congr (hI : Inv s) (hI' : Inv s') {host : List UInt8}
    (h : ∀ r : Throttle, r.addr = cstr host →
      ((∃ x ∈ s'.throttles, s'.record x = r) ↔ ∃ x ∈ s.throttles, s.record x = r)) :
    s'.find host = s.find host := by
  refine Option.ext fun r => ?_
  rw [hI'.find_iff, hI.find_iff]
  constructor
  · rintro ⟨x, hx, ha, rfl⟩
    obtain ⟨y, hy, he⟩ := (h _ ha).mp ⟨x, hx, rfl⟩
    exact ⟨y, hy, by rw [he]; exact ha, he⟩
  · rintro ⟨x, hx, ha, rfl⟩
    obtain ⟨y, hy, he⟩ := (h _ ha).mpr ⟨x, hx, rfl⟩
    exact ⟨y, hy, by rw [he]; exact ha, he⟩

theorem hashFind_none (hI : Inv s) {host : List UInt8} (h : s.hashFind host = none) {x : Nat}
    (hx : x ∈ s.throttles) : (s.record x).addr ≠ cstr host := by
  intro ha
  rw [hI.hashFind_iff.mpr ⟨hx, ha⟩] at h
  cases h

/-! ## One record -/

/-- Writing a record without changing whose it is. -/
theorem setRecord (hI : Inv s) {x : Nat} {r : Throttle} (ha : r.addr = (s.record x).addr) :
    Inv { s with record := update s.record x r } := by
  have hkey : ∀ y, (update s.record x r y).addr = (s.record y).addr := by
    intro y
    by_cases hy : y = x
    · subst hy; rw [Function.update_self, ha]
    · rw [Function.update_of_ne hy]
  refine ⟨hI.size, ?_, hI.nodup_table, hI.nodup, hI.distinct.congr fun y _ => hkey y, ?_⟩
  · simp only [hkey]
    exact hI.mem_table
  · simp only [hkey]
    exact hI.addr

theorem find_setRecord (hI : Inv s) {x : Nat} (hx : x ∈ s.throttles) {r : Throttle}
    (ha : r.addr = (s.record x).addr) (host : List UInt8) :
    ({ s with record := update s.record x r } : ThrottleSt).find host =
      if cstr host = r.addr then some r else s.find host := by
  have hI' := hI.setRecord ha
  split
  · next hh =>
      refine hI'.find_iff.mpr ⟨x, hx, ?_, ?_⟩
      · simp only [Function.update_self, hh]
      · simp only [Function.update_self]
  · next hh =>
      refine hI.find_congr hI' fun q hq => ?_
      have hne : ∀ y ∈ s.throttles, update s.record x r y = q ↔ s.record y = q := by
        intro y _
        by_cases hy : y = x
        · subst hy
          rw [Function.update_self]
          exact iff_of_false (fun e => hh (by rw [← hq, e]))
            fun e => hh (by rw [← hq, ← e, ha])
        · rw [Function.update_of_ne hy]
      exact exists_congr fun y => and_congr_right fun hy => hne y hy

/-- The record of a host that has none. -/
theorem insertNew (hI : Inv s) (A : Allocator) {host : List UInt8} (sotime : Int)
    (h0 : s.size ≠ 0) (hnone : s.hashFind host = none) :
    Inv (s.insertNew A host sotime).2 ∧
      (s.insertNew A host sotime).1 ∈ (s.insertNew A host sotime).2.throttles ∧
      (s.insertNew A host sotime).2.record (s.insertNew A host sotime).1 =
        (s.record (A.pick s.throttles)).new host sotime ∧
      ∀ other, cstr other ≠ cstr host →
        (s.insertNew A host sotime).2.find other = s.find other := by
  have hfresh : A.pick s.throttles ∉ s.throttles := A.pick_fresh s.throttles
  have hold : ∀ x ∈ s.throttles, update s.record (A.pick s.throttles)
      ((s.record (A.pick s.throttles)).new host sotime) x = s.record x :=
    fun x hx => Function.update_of_ne (fun e => hfresh (by rw [← e]; exact hx)) ..
  have hself : update s.record (A.pick s.throttles)
      ((s.record (A.pick s.throttles)).new host sotime) (A.pick s.throttles) =
        (s.record (A.pick s.throttles)).new host sotime := Function.update_self ..
  have hI' : Inv (s.insertNew A host sotime).2 := by
    refine ⟨fun h => absurd h h0, fun i x => ?_, fun i => ?_, ?_, ?_, ?_⟩
    · refine mem_push_iff (f := fun x => hashGetKeyHash s.size (update s.record (A.pick s.throttles)
        ((s.record (A.pick s.throttles)).new host sotime) x).addr) fun i x => ?_
      refine (hI.mem_table i x).trans (and_congr_right fun hx => ?_)
      rw [hold x hx]
    · exact nodup_update_cons hI.nodup_table (fun h => hfresh ((hI.mem_table _ _).mp h).1) i
    · exact List.nodup_cons.mpr ⟨hfresh, hI.nodup⟩
    · refine (hI.distinct.congr fun x hx => congrArg Throttle.addr (hold x hx)).cons ?_
      intro x hx
      have hne := hI.hashFind_none hnone hx
      simp only [hself, hold x hx]
      exact hne
    · intro x hx
      rcases List.mem_cons.mp hx with rfl | hx
      · simp only [ThrottleSt.insertNew, ThrottleSt.hashInsert, hself]
        exact cstr_cstr host
      · have := hI.addr x hx
        simp only [ThrottleSt.insertNew, ThrottleSt.hashInsert, hold x hx]
        exact this
  refine ⟨hI', List.mem_cons_self .., hself, fun other hne => ?_⟩
  refine hI.find_congr hI' fun q hq => ?_
  constructor
  · rintro ⟨x, hx, rfl⟩
    rcases List.mem_cons.mp hx with rfl | hx
    · exact absurd (hq.symm.trans (congrArg Throttle.addr hself)) hne
    · exact ⟨x, hx, (hold x hx).symm⟩
  · rintro ⟨x, hx, rfl⟩
    exact ⟨x, List.mem_cons_of_mem _ hx, hold x hx⟩

/-! ## The timers -/

theorem remove (hI : Inv s) (tp : Nat) : Inv (s.remove tp) := by
  have hmem : ∀ x, x ∈ (s.remove tp).throttles ↔ x ≠ tp ∧ x ∈ s.throttles :=
    fun x => hI.nodup.mem_erase_iff
  have hsub : List.Sublist (s.remove tp).throttles s.throttles := List.erase_sublist
  refine ⟨fun h => ?_, fun i x => ?_, fun i => ?_, hI.nodup.sublist hsub,
    hI.distinct.sublist hsub, fun x hx => hI.addr x ((hmem x).mp hx).2⟩
  · have := hI.size h
    simp only [ThrottleSt.remove, ThrottleSt.hashDelete, this, List.erase_nil]
  · exact mem_take_iff hI.nodup_table hI.nodup hI.mem_table
  · exact nodup_update_erase hI.nodup_table i

/-- The loop of a timer over some of the records. -/
theorem expireFrom (gone : Throttle → Bool) (xs : List Nat) :
    ∀ {s : ThrottleSt}, Inv s → Inv (s.expireFrom gone xs) ∧
      (s.expireFrom gone xs).record = s.record ∧ (s.expireFrom gone xs).size = s.size ∧
      ∀ x, x ∈ (s.expireFrom gone xs).throttles ↔
        x ∈ s.throttles ∧ ¬ (x ∈ xs ∧ gone (s.record x) = true) := by
  induction xs with
  | nil =>
      intro s hI
      refine ⟨hI, rfl, rfl, fun x => (and_iff_left ?_).symm⟩
      rintro ⟨hx, -⟩
      cases hx
  | cons tp xs ih =>
      intro s hI
      rw [ThrottleSt.expireFrom, List.foldl_cons, ← ThrottleSt.expireFrom]
      by_cases ho : gone (s.record tp) = true
      · rw [if_pos ho]
        obtain ⟨hI', hr, hz, hm⟩ := ih (hI.remove tp)
        refine ⟨hI', hr, hz, fun x => (hm x).trans ?_⟩
        have hx : x ∈ (s.remove tp).throttles ↔ x ≠ tp ∧ x ∈ s.throttles :=
          hI.nodup.mem_erase_iff
        rw [hx, List.mem_cons]
        show (x ≠ tp ∧ x ∈ s.throttles) ∧ ¬ (x ∈ xs ∧ gone (s.record x) = true) ↔ _
        by_cases hxt : x = tp
        · subst hxt
          exact iff_of_false (fun h => h.1.1 rfl) fun h => h.2 ⟨Or.inl rfl, ho⟩
        · simp only [hxt, ne_eq, not_false_eq_true, true_and, false_or]
      · rw [if_neg ho]
        obtain ⟨hI', hr, hz, hm⟩ := ih hI
        refine ⟨hI', hr, hz, fun x => (hm x).trans ?_⟩
        rw [List.mem_cons]
        by_cases hxt : x = tp
        · subst hxt
          exact and_congr_right fun _ => not_congr
            (iff_of_false (fun h => ho h.2) fun h => ho h.2)
        · simp only [hxt, false_or]

theorem expire (hI : Inv s) (gone : Throttle → Bool) :
    Inv (s.expire gone) ∧ (s.expire gone).size = s.size ∧
      ∀ host, (s.expire gone).find host = (s.find host).filter fun r => !gone r := by
  obtain ⟨hI', hr, hz, hm⟩ := Inv.expireFrom gone s.throttles hI
  refine ⟨hI', hz, fun host => Option.ext fun r => ?_⟩
  rw [ThrottleSt.expire, hI'.find_iff, Option.filter_eq_some_iff, hI.find_iff]
  simp only [hr, hm]
  constructor
  · rintro ⟨x, ⟨hx, hn⟩, ha, rfl⟩
    exact ⟨⟨x, hx, ha, rfl⟩, by simpa using fun h => hn ⟨hx, h⟩⟩
  · rintro ⟨⟨x, hx, ha, rfl⟩, hn⟩
    exact ⟨x, ⟨hx, fun h => by simp [h.2] at hn⟩, ha, rfl⟩

theorem throttleRemove (hI : Inv s) (host : List UInt8) :
    Inv (s.throttleRemove host) ∧ (s.throttleRemove host).size = s.size ∧
      ∀ other, (s.throttleRemove host).find other =
        if cstr other = cstr host ∧ cstr host ≠ [] then none else s.find other := by
  rw [ThrottleSt.throttleRemove]
  split
  · next hnil =>
      refine ⟨hI, rfl, fun other => ?_⟩
      rw [if_neg fun h => h.2 hnil]
  · next hne =>
      cases hf : s.hashFind host with
      | none =>
          refine ⟨hI, rfl, fun other => ?_⟩
          by_cases h : cstr other = cstr host ∧ cstr host ≠ []
          · rw [if_pos h, find_of_cstr h.1, ThrottleSt.find, hf]
            rfl
          · rw [if_neg h]
      | some tp =>
          obtain ⟨htp, haddr⟩ := hI.hashFind_iff.mp hf
          have hI' := hI.remove tp
          have hmem : ∀ x, x ∈ (s.remove tp).throttles ↔ x ≠ tp ∧ x ∈ s.throttles :=
            fun x => hI.nodup.mem_erase_iff
          refine ⟨hI', rfl, fun other => ?_⟩
          by_cases h : cstr other = cstr host ∧ cstr host ≠ []
          · rw [if_pos h]
            refine Option.eq_none_iff_forall_ne_some.mpr fun r hr => ?_
            obtain ⟨x, hx, ha, -⟩ := hI'.find_iff.mp hr
            obtain ⟨hxt, hx⟩ := (hmem x).mp hx
            exact hxt (hI.distinct.eq_of_mem hx htp (ha.trans (h.1.trans haddr.symm)))
          · rw [if_neg h]
            refine hI.find_congr hI' fun r hr => exists_congr fun x => ?_
            refine ⟨fun hx => ⟨((hmem x).mp hx.1).2, hx.2⟩,
              fun hx => ⟨(hmem x).mpr ⟨fun hxt => h ⟨?_, hne⟩, hx.1⟩, hx.2⟩⟩
            rw [← hr, ← hx.2, hxt]
            exact haddr

/-! ## The resize -/

/-- The loop of `resize_hash_table` over some of the old entries. -/
theorem foldl_hashInsert (old : List Nat) : ∀ (s : ThrottleSt),
    ∃ table, old.foldl (fun s ent => s.hashInsert ent) s = { s with table := table } ∧
      ∀ i, table i =
        (old.filter fun x => hashGetKeyHash s.size (s.record x).addr = i).reverse ++
          s.table i := by
  induction old with
  | nil => exact fun s => ⟨s.table, rfl, fun i => rfl⟩
  | cons ent old ih =>
      intro s
      obtain ⟨table, ht, hi⟩ := ih (s.hashInsert ent)
      refine ⟨table, ht, fun i => ?_⟩
      rw [hi, List.filter_cons]
      by_cases he : hashGetKeyHash s.size (s.record ent).addr = i
      · simp only [ThrottleSt.hashInsert, he, decide_true, if_true, Function.update_self,
          List.reverse_cons, List.append_assoc, List.singleton_append]
      · simp only [ThrottleSt.hashInsert, he, decide_false, Bool.false_eq_true, if_false,
          Function.update_of_ne (Ne.symm he)]
        rfl

/-- The old buckets hold every record once. -/
theorem mem_old (hI : Inv s) (x : Nat) :
    x ∈ (List.range s.size).flatMap s.table ↔ x ∈ s.throttles := by
  simp only [List.mem_flatMap, List.mem_range, hI.mem_table]
  constructor
  · rintro ⟨i, -, hx, -⟩
    exact hx
  · intro hx
    refine ⟨_, Nat.mod_lt _ (Nat.pos_of_ne_zero fun h0 => ?_), hx, rfl⟩
    rw [hI.size h0] at hx
    cases hx

theorem nodup_old (hI : Inv s) : ((List.range s.size).flatMap s.table).Nodup := by
  refine List.nodup_flatMap.mpr ⟨fun i _ => hI.nodup_table i, ?_⟩
  refine List.nodup_range.imp fun {i j} hij x hi hj => hij ?_
  rw [← ((hI.mem_table i x).mp hi).2, ((hI.mem_table j x).mp hj).2]

theorem throttleResize (hI : Inv s) {elems : Nat} (hs : s.throttleResize elems = .ok s') :
    Inv s' ∧ s'.size = elems ∧ ∀ host, s'.find host = s.find host := by
  simp only [ThrottleSt.throttleResize, resizeHashTable] at hs
  split at hs
  · cases hs
  · next hz =>
      obtain ⟨table, ht, hi⟩ := foldl_hashInsert ((List.range s.size).flatMap s.table)
        { s with size := elems, table := fun _ => [] }
      rw [ht] at hs
      cases hs
      have hI' : Inv { s with size := elems, table := table } := by
        refine ⟨fun h0 => ?_, fun i x => ?_, fun i => ?_, hI.nodup, hI.distinct, hI.addr⟩
        · have hnil := not_and_not_right.mp hz h0
          exact List.eq_nil_iff_forall_not_mem.mpr fun x hx => by
            rw [← hI.mem_old, hnil] at hx
            cases hx
        · show x ∈ table i ↔ _
          rw [hi, List.append_nil, List.mem_reverse, List.mem_filter, hI.mem_old]
          simp only [decide_eq_true_eq]
        · show (table i).Nodup
          rw [hi, List.append_nil, List.nodup_reverse]
          exact hI.nodup_old.filter _
      exact ⟨hI', rfl, fun host => hI.find_congr hI' fun r _ => Iff.rfl⟩

end Inv

end ThrottleSt

end TrIrcd
