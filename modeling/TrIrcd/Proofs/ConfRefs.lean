import Mathlib.Data.List.Nodup
import Mathlib.Data.List.Perm.Basic
import TrIrcd.Lib.Bytes
import TrIrcd.Lib.Run
import TrIrcd.Src.Confitem

/-!
# Confs live as long as somebody holds them

A conf counts its clients, and a class the clients of its confs, other than
operators (`Sound`). What is not on the list any more is illegal and in use, so
emptying the configuration frees what nobody holds (`Sound.drop`).

Two things do not follow. `detach_conf` frees an illegal conf without looking
for it on the list, which `flush_deleted_I_P` has to take it from before. And a
class is freed when it has no links, which an operator does not count for, and
by `detach_conf` while it is on the list of classes. `Spares` says of a call
that it does neither, and such a call keeps all (`step_sound`).
-/

namespace TrIrcd

open Function (update)
open TrIrcd.Lib

namespace ConfSt

/-- The client of `p` is one that the links of the class `k` count. -/
def linkedTo (s : ConfSt) (k : Nat) (p : Nat × Nat) : Bool :=
  (s.conf p.2).counted && decide ((s.conf p.2).connClass = some k)

/-- What every call keeps. -/
structure Sound (s : ConfSt) : Prop where
  listed : ∀ a ∈ s.list, s.Live a
  list_nodup : s.list.Nodup
  attached : ∀ p ∈ s.confs, s.Live p.2
  confs_nodup : s.confs.Nodup
  freed_made : ∀ a ∈ s.freed, a < s.made
  freed_nodup : s.freed.Nodup
  clients : ∀ a, s.Live a → (s.conf a).clients = s.confs.countP fun p => p.2 = a
  unlisted : ∀ a, s.Live a → a ∈ s.list ∨ ((s.conf a).illegal = true ∧ (s.conf a).clients ≠ 0)
  links : ∀ k, s.LiveClass k → (s.cls k).links = s.confs.countP (s.linkedTo k)
  class_live : ∀ a, s.Live a → ∀ k, (s.conf a).connClass = some k → s.LiveClass k
  classes_live : ∀ k ∈ s.classes, s.LiveClass k
  classes_nodup : s.classes.Nodup
  classes_freed_made : ∀ k ∈ s.classesFreed, k < s.classesMade
  first : s.classes.head? = some 0 ∧ (s.cls 0).number = 0 ∧ 0 ≤ (s.cls 0).maxConnections
  numbers : ∀ k ∈ s.classes, ∀ k' ∈ s.classes, (s.cls k).number = (s.cls k').number → k = k'

variable {s s' : ConfSt}

theorem init_sound : Sound init where
  listed a ha := nomatch ha
  list_nodup := List.nodup_nil
  attached p hp := nomatch hp
  confs_nodup := List.nodup_nil
  freed_made a ha := nomatch ha
  freed_nodup := List.nodup_nil
  clients a ha := absurd ha.1 (Nat.not_lt_zero a)
  unlisted a ha := absurd ha.1 (Nat.not_lt_zero a)
  links _ _ := rfl
  class_live a ha := absurd ha.1 (Nat.not_lt_zero a)
  classes_live k hk := by
    rw [List.mem_singleton.mp hk]
    exact ⟨Nat.one_pos, List.not_mem_nil⟩
  classes_nodup := List.nodup_singleton 0
  classes_freed_made k hk := nomatch hk
  first := ⟨rfl, rfl, Int.zero_le_ofNat 1⟩
  numbers k hk k' hk' _ := (List.mem_singleton.mp hk).trans (List.mem_singleton.mp hk').symm

theorem counted_or_illegal (status : UInt32) :
    (status ||| confIllegal) &&& confClientMask = status &&& confClientMask := by
  rw [or_and_word, show confIllegal &&& confClientMask = 0 from rfl, UInt32.or_zero]

theorem or_illegal_ne (status : UInt32) : (status ||| confIllegal) &&& confIllegal ≠ 0 := by
  have hand : (status ||| confIllegal) &&& confIllegal = confIllegal := by
    rw [← UInt32.toBitVec_inj]
    ext i
    simp only [UInt32.toBitVec_and, UInt32.toBitVec_or, BitVec.getElem_and, BitVec.getElem_or]
    cases status.toBitVec[i] <;> simp
  rw [hand]
  decide

/-- What is attached is in use. -/
theorem Sound.attached_iff (h : Sound s) {a : Nat} (ha : s.Live a) :
    (s.conf a).clients ≠ 0 ↔ ∃ c, (c, a) ∈ s.confs := by
  rw [h.clients a ha, Ne, Int.natCast_eq_zero, List.countP_eq_zero]
  constructor
  · intro hne
    by_contra hno
    refine hne fun p hp he => hno ⟨p.1, ?_⟩
    rw [← of_decide_eq_true he]
    exact hp
  · intro ⟨c, hc⟩ hno
    exact hno _ hc (decide_eq_true rfl)

theorem Sound.head_mem (h : Sound s) : 0 ∈ s.classes := List.mem_of_head? h.first.1

theorem Sound.tail_eq (h : Sound s) : s.classes = 0 :: s.classes.tail := by
  have hfirst := h.first.1
  cases hc : s.classes with
  | nil => rw [hc] at hfirst; cases hfirst
  | cons k rest =>
      rw [hc] at hfirst
      cases hfirst
      rfl

/-! ## Confs that go -/

/-- Confs of the list that nobody holds may go, and confs may become illegal
and leave it. -/
theorem Sound.drop (h : Sound s) (out : List Nat) (hs : s' = { s with
      conf := s'.conf, freed := out ++ s.freed, list := s'.list })
    (hclients : ∀ a, (s'.conf a).clients = (s.conf a).clients)
    (hclass : ∀ a, (s'.conf a).connClass = (s.conf a).connClass)
    (hcounted : ∀ a, (s'.conf a).counted = (s.conf a).counted)
    (hillegal : ∀ a, (s.conf a).illegal = true → (s'.conf a).illegal = true)
    (hout : out.Nodup) (hunused : ∀ a ∈ out, a ∈ s.list ∧ (s.conf a).clients = 0)
    (hnodup : s'.list.Nodup) (hlist : ∀ a ∈ s'.list, a ∈ s.list ∧ a ∉ out)
    (hoff : ∀ a ∈ s.list, a ∉ out →
      a ∈ s'.list ∨ ((s'.conf a).illegal = true ∧ (s'.conf a).clients ≠ 0)) : Sound s' := by
  have hfreed : s'.freed = out ++ s.freed := by rw [hs]
  have hmade : s'.made = s.made := by rw [hs]
  have hconfs : s'.confs = s.confs := by rw [hs]
  have hcls : s'.cls = s.cls := by rw [hs]
  have hclasses : s'.classes = s.classes := by rw [hs]
  have hcmade : s'.classesMade = s.classesMade := by rw [hs]
  have hcfreed : s'.classesFreed = s.classesFreed := by rw [hs]
  have hlc : ∀ k, s'.LiveClass k ↔ s.LiveClass k := by
    intro k
    rw [LiveClass, LiveClass, hcmade, hcfreed]
  have hlive : ∀ a, s'.Live a ↔ s.Live a ∧ a ∉ out := by
    intro a
    rw [Live, Live, hmade, hfreed, List.mem_append, not_or, and_comm (a := a ∉ out), and_assoc]
  have hlinked : ∀ k, s'.linkedTo k = s.linkedTo k := by
    intro k
    funext p
    rw [linkedTo, linkedTo, hcounted, hclass]
  constructor
  · intro a ha
    exact (hlive a).mpr ⟨h.listed a (hlist a ha).1, (hlist a ha).2⟩
  · exact hnodup
  · intro p hp
    rw [hconfs] at hp
    refine (hlive _).mpr ⟨h.attached p hp, fun ho => ?_⟩
    exact (h.attached_iff (h.attached p hp)).mpr ⟨p.1, hp⟩ (hunused _ ho).2
  · rw [hconfs]
    exact h.confs_nodup
  · intro a ha
    rw [hfreed] at ha
    rw [hmade]
    rcases List.mem_append.mp ha with ha | ha
    · exact (h.listed a (hunused a ha).1).1
    · exact h.freed_made a ha
  · rw [hfreed]
    refine List.nodup_append'.mpr ⟨hout, h.freed_nodup, fun a ha hf => ?_⟩
    exact (h.listed a (hunused a ha).1).2 hf
  · intro a ha
    rw [hclients, hconfs]
    exact h.clients a ((hlive a).mp ha).1
  · intro a ha
    obtain ⟨ha, hno⟩ := (hlive a).mp ha
    rcases h.unlisted a ha with hl | ⟨hi, hc⟩
    · exact hoff a hl hno
    · rw [← hclients] at hc
      exact Or.inr ⟨hillegal a hi, hc⟩
  · intro k hk
    rw [hcls, hconfs, hlinked]
    exact h.links k ((hlc k).mp hk)
  · intro a ha k hk
    rw [hclass] at hk
    exact (hlc k).mpr (h.class_live a ((hlive a).mp ha).1 k hk)
  · intro k hk
    rw [hclasses] at hk
    exact (hlc k).mpr (h.classes_live k hk)
  · rw [hclasses]
    exact h.classes_nodup
  · rw [hcfreed, hcmade]
    exact h.classes_freed_made
  · rw [hclasses, hcls]
    exact h.first
  · rw [hclasses, hcls]
    exact h.numbers

/-- Confs have kept who holds them and what they hold. -/
structure SameHolds (s s' : ConfSt) : Prop where
  confs : s'.confs = s.confs
  clients : ∀ a, (s'.conf a).clients = (s.conf a).clients
  connClass : ∀ a, (s'.conf a).connClass = (s.conf a).connClass
  cls : s'.cls = s.cls
  classes : s'.classes = s.classes
  made : s'.classesMade = s.classesMade

theorem SameHolds.refl (s : ConfSt) : SameHolds s s :=
  ⟨rfl, fun _ => rfl, fun _ => rfl, rfl, rfl, rfl⟩

theorem SameHolds.of_free {a : Nat} (h : SameHolds (freeConf a s) s') : SameHolds s s' :=
  ⟨h.confs, h.clients, h.connClass, h.cls, h.classes, h.made⟩

theorem SameHolds.trans {s₁ s₂ : ConfSt} (h : SameHolds s s₁) (h' : SameHolds s₁ s₂) :
    SameHolds s s₂ :=
  ⟨h'.confs.trans h.confs, fun a => (h'.clients a).trans (h.clients a),
    fun a => (h'.connClass a).trans (h.connClass a), h'.cls.trans h.cls,
    h'.classes.trans h.classes, h'.made.trans h.made⟩

variable {a : Nat} {pre rest : List Nat}

/-- A conf of the list is freed. -/
theorem Sound.free (h : Sound { s with list := pre ++ a :: rest }) (hc : (s.conf a).clients = 0) :
    Sound { freeConf a s with list := pre ++ rest } := by
  have hnd := List.nodup_cons.mp (List.nodup_middle.mp h.list_nodup)
  refine h.drop [a] rfl (fun _ => rfl) (fun _ => rfl) (fun _ => rfl) (fun _ => id)
    (List.nodup_singleton a) (fun b hb => ?_) hnd.2 (fun b hb => ?_) fun b hb hne => ?_
  · rw [List.mem_singleton.mp hb]
    exact ⟨List.mem_append_right _ (List.mem_cons_self ..), hc⟩
  · refine ⟨List.perm_middle.mem_iff.mpr (List.mem_cons_of_mem _ hb), fun he => hnd.1 ?_⟩
    rw [← List.mem_singleton.mp he]
    exact hb
  · refine Or.inl ((List.mem_cons.mp (List.perm_middle.mem_iff.mp hb)).resolve_left fun he => ?_)
    exact hne (List.mem_singleton.mpr he)

/-- A conf that is in use leaves the list, and is illegal. -/
theorem Sound.unlist (h : Sound { s with list := pre ++ a :: rest }) (hc : (s.conf a).clients ≠ 0)
    (hi : (s.conf a).illegal = true) : Sound { s with list := pre ++ rest } := by
  have hnd := List.nodup_cons.mp (List.nodup_middle.mp h.list_nodup)
  refine h.drop [] rfl (fun _ => rfl) (fun _ => rfl) (fun _ => rfl) (fun _ => id)
    List.nodup_nil (fun b hb => nomatch hb) hnd.2 (fun b hb => ?_) fun b hb _ => ?_
  · exact ⟨List.perm_middle.mem_iff.mpr (List.mem_cons_of_mem _ hb), List.not_mem_nil⟩
  · rcases List.mem_cons.mp (List.perm_middle.mem_iff.mp hb) with he | hb
    · rw [he]
      exact Or.inr ⟨hi, hc⟩
    · exact Or.inl hb

theorem setConf_self {b : ConfItem} : (s.setConf a b).conf a = b := Function.update_self ..

theorem setConf_of_ne {b : ConfItem} {c : Nat} (hc : c ≠ a) : (s.setConf a b).conf c = s.conf c :=
  Function.update_of_ne hc ..

/-- A conf becomes illegal, and is as it was else. -/
theorem markIllegal_conf (a b : Nat) : ((markIllegal a s).conf b).clients = (s.conf b).clients ∧
    ((markIllegal a s).conf b).connClass = (s.conf b).connClass ∧
    ((markIllegal a s).conf b).counted = (s.conf b).counted ∧
    ((s.conf b).illegal = true → ((markIllegal a s).conf b).illegal = true) ∧
    ((markIllegal a s).conf a).illegal = true := by
  have hself : ((markIllegal a s).conf a).illegal = true := by
    rw [markIllegal, setConf_self]
    exact decide_eq_true (or_illegal_ne _)
  by_cases hb : b = a
  · rw [hb]
    refine ⟨?_, ?_, ?_, fun _ => hself, hself⟩
    · rw [markIllegal, setConf_self]
    · rw [markIllegal, setConf_self]
    · rw [markIllegal, setConf_self, ConfItem.counted, ConfItem.counted]
      dsimp only
      rw [counted_or_illegal]
  · have hsame : (markIllegal a s).conf b = s.conf b := setConf_of_ne hb
    rw [hsame]
    exact ⟨rfl, rfl, rfl, id, hself⟩

theorem Sound.mark (h : Sound s) (a : Nat) : Sound (markIllegal a s) :=
  h.drop [] rfl (fun b => (markIllegal_conf a b).1) (fun b => (markIllegal_conf a b).2.1)
    (fun b => (markIllegal_conf a b).2.2.1) (fun b => (markIllegal_conf a b).2.2.2.1)
    List.nodup_nil (fun _ hb => nomatch hb) h.list_nodup
    (fun _ hb => ⟨hb, List.not_mem_nil⟩) fun _ hb _ => Or.inl hb

theorem markIllegal_same (a : Nat) (s : ConfSt) : SameHolds s (markIllegal a s) :=
  ⟨rfl, fun b => (markIllegal_conf a b).1, fun b => (markIllegal_conf a b).2.1, rfl, rfl, rfl⟩

/-! ## Rehashing -/

theorem clearLoop_sound (rest : List Nat) : ∀ (pre : List Nat) (s : ConfSt),
    Sound { s with list := pre ++ rest } →
      Sound { (clearLoop rest s).2 with list := pre ++ (clearLoop rest s).1 } ∧
        SameHolds s (clearLoop rest s).2 ∧
          ∀ a ∈ (clearLoop rest s).1, (s.conf a).clients ≠ 0 := by
  induction rest with
  | nil => exact fun pre s h => ⟨h, SameHolds.refl s, fun a ha => nomatch ha⟩
  | cons a rest ih =>
      intro pre s h
      rw [clearLoop]
      split
      next hc =>
        have hsame := markIllegal_same a s
        have hmark : Sound { markIllegal a s with list := pre ++ a :: rest } := h.mark a
        have hc' : ((markIllegal a s).conf a).clients ≠ 0 := by
          rw [hsame.clients]
          exact hc
        have hi := (markIllegal_conf (s := s) a a).2.2.2.2
        generalize markIllegal a s = s₁ at hsame hmark hc' hi ⊢
        dsimp only
        split
        next =>
          obtain ⟨hs, hsame', hall⟩ := ih pre s₁ (hmark.unlist hc' hi)
          refine ⟨hs, hsame.trans hsame', fun b hb => ?_⟩
          rw [← hsame.clients]
          exact hall b hb
        next =>
          have happ : pre ++ a :: rest = pre ++ [a] ++ rest := by
            rw [List.append_assoc, List.singleton_append]
          rw [happ] at hmark
          obtain ⟨hs, hsame', hall⟩ := ih (pre ++ [a]) s₁ hmark
          rw [List.append_assoc, List.singleton_append] at hs
          refine ⟨hs, hsame.trans hsame', fun b hb => ?_⟩
          rcases List.mem_cons.mp hb with hb | hb
          · rw [hb]
            exact hc
          · rw [← hsame.clients]
            exact hall b hb
      next hc =>
        obtain ⟨hs, hsame, hall⟩ := ih pre (freeConf a s) (h.free (not_not.mp hc))
        exact ⟨hs, hsame.of_free, hall⟩

/-- An emptied configuration holds what is in use, and nothing else lives. -/
theorem clearConfs_sound (h : Sound s) : Sound (clearConfs s) ∧ SameHolds s (clearConfs s) ∧
    ∀ a, (clearConfs s).Live a → (s.conf a).clients ≠ 0 := by
  obtain ⟨hs, hsame, hall⟩ := clearLoop_sound s.list [] s h
  refine ⟨hs, ⟨hsame.confs, hsame.clients, hsame.connClass, hsame.cls, hsame.classes,
    hsame.made⟩, fun a ha => ?_⟩
  rcases hs.unlisted a ha with hl | ⟨_, hc⟩
  · exact hall a hl
  · rw [← hsame.clients]
    exact hc

theorem flushLoop_sound (rest : List Nat) : ∀ (pre : List Nat) (s : ConfSt),
    Sound { s with list := pre ++ rest } →
      Sound { (flushLoop rest s).2 with list := pre ++ (flushLoop rest s).1 } := by
  induction rest with
  | nil => exact fun pre s h => h
  | cons a rest ih =>
      intro pre s h
      rw [flushLoop]
      split
      next hi =>
        split
        next hc => exact ih pre (freeConf a s) (h.free hc)
        next hc => exact ih pre s (h.unlist hc hi)
      next =>
        have happ : pre ++ a :: rest = pre ++ [a] ++ rest := by
          rw [List.append_assoc, List.singleton_append]
        rw [happ] at h
        have hs := ih (pre ++ [a]) s h
        rw [List.append_assoc, List.singleton_append] at hs
        exact hs

theorem flushDeletedIP_sound (h : Sound s) : Sound (flushDeletedIP s) :=
  flushLoop_sound s.list [] s h

/-! ## Classes -/

variable {k : Nat}

/-- Limits change, and the first class stays. -/
theorem Sound.limits (h : Sound s) (hs : s' = { s with cls := s'.cls })
    (hnumber : ∀ k ∈ s.classes, (s'.cls k).number = (s.cls k).number)
    (hlinks : ∀ k, s.LiveClass k → (s'.cls k).links = (s.cls k).links)
    (hfirst : 0 ≤ (s'.cls 0).maxConnections) : Sound s' := by
  have hlist : s'.list = s.list := by rw [hs]
  have hlive : ∀ a, s'.Live a ↔ s.Live a := by
    intro a
    rw [hs]
    exact Iff.rfl
  have hlc : ∀ k, s'.LiveClass k ↔ s.LiveClass k := by
    intro k
    rw [hs]
    exact Iff.rfl
  have hconf : s'.conf = s.conf := by rw [hs]
  have hconfs : s'.confs = s.confs := by rw [hs]
  have hclasses : s'.classes = s.classes := by rw [hs]
  have hlinked : s'.linkedTo = s.linkedTo := by
    funext k p
    rw [linkedTo, linkedTo, hconf]
  constructor
  · intro a ha
    rw [hlist] at ha
    exact (hlive a).mpr (h.listed a ha)
  · rw [hlist]
    exact h.list_nodup
  · intro p hp
    rw [hconfs] at hp
    exact (hlive _).mpr (h.attached p hp)
  · rw [hconfs]
    exact h.confs_nodup
  · rw [show s'.freed = s.freed by rw [hs], show s'.made = s.made by rw [hs]]
    exact h.freed_made
  · rw [show s'.freed = s.freed by rw [hs]]
    exact h.freed_nodup
  · intro a ha
    rw [hconf, hconfs]
    exact h.clients a ((hlive a).mp ha)
  · intro a ha
    rw [hlist, hconf]
    exact h.unlisted a ((hlive a).mp ha)
  · intro k hk
    rw [hlinks k ((hlc k).mp hk), hconfs, hlinked]
    exact h.links k ((hlc k).mp hk)
  · intro a ha k hk
    rw [hconf] at hk
    exact (hlc k).mpr (h.class_live a ((hlive a).mp ha) k hk)
  · intro k hk
    rw [hclasses] at hk
    exact (hlc k).mpr (h.classes_live k hk)
  · rw [hclasses]
    exact h.classes_nodup
  · rw [show s'.classesFreed = s.classesFreed by rw [hs],
      show s'.classesMade = s.classesMade by rw [hs]]
    exact h.classes_freed_made
  · rw [hclasses, hnumber 0 h.head_mem]
    exact ⟨h.first.1, h.first.2.1, hfirst⟩
  · rw [hclasses]
    intro k hk k' hk'
    rw [hnumber k hk, hnumber k' hk']
    exact h.numbers k hk k' hk'

theorem markClasses_cls (s : ConfSt) (k : Nat) :
    ((markClasses s).cls k).number = (s.cls k).number ∧
      ((markClasses s).cls k).links = (s.cls k).links := by
  simp only [markClasses]
  split <;> exact ⟨rfl, rfl⟩

theorem markClasses_sound (h : Sound s) : Sound (markClasses s) := by
  refine h.limits rfl (fun k _ => (markClasses_cls s k).1) (fun k _ => (markClasses_cls s k).2) ?_
  have hnot : 0 ∉ s.classes.tail := by
    have hnd := h.classes_nodup
    rw [h.tail_eq] at hnd
    exact (List.nodup_cons.mp hnd).1
  simp only [markClasses, if_neg hnot]
  exact h.first.2.2

/-- A class that is off the list and no conf's is freed. -/
theorem Sound.freeClass (h : Sound s) (hk : k ∉ s.classes)
    (hno : ∀ a, s.Live a → (s.conf a).connClass ≠ some k) (hmade : k < s.classesMade) :
    Sound (freeClass k s) := by
  have hlc : ∀ j, (ConfSt.freeClass k s).LiveClass j ↔ s.LiveClass j ∧ j ≠ k := by
    intro j
    simp only [ConfSt.freeClass, LiveClass, List.mem_cons, not_or]
    rw [and_comm (a := ¬ j = k), and_assoc]
  constructor
  · exact h.listed
  · exact h.list_nodup
  · exact h.attached
  · exact h.confs_nodup
  · exact h.freed_made
  · exact h.freed_nodup
  · exact h.clients
  · exact h.unlisted
  · exact fun j hj => h.links j ((hlc j).mp hj).1
  · intro a ha j hj
    refine (hlc j).mpr ⟨h.class_live a ha j hj, fun he => hno a ha ?_⟩
    rw [← he]
    exact hj
  · exact fun j hj => (hlc j).mpr ⟨h.classes_live j hj, fun he => hk (he ▸ hj)⟩
  · exact h.classes_nodup
  · intro j hj
    rcases List.mem_cons.mp hj with hj | hj
    · rw [hj]
      exact hmade
    · exact h.classes_freed_made j hj
  · exact h.first
  · exact h.numbers

/-- A class behind the first one leaves the list. -/
theorem Sound.unlistClass (h : Sound { s with classes := 0 :: (pre ++ k :: rest) }) :
    Sound { s with classes := 0 :: (pre ++ rest) } := by
  have hsub : (0 :: (pre ++ rest)).Sublist (0 :: (pre ++ k :: rest)) :=
    ((List.sublist_cons_self k rest).append_left pre).cons_cons 0
  exact ⟨h.listed, h.list_nodup, h.attached, h.confs_nodup, h.freed_made, h.freed_nodup,
    h.clients, h.unlisted, h.links, h.class_live, fun j hj => h.classes_live j (hsub.subset hj),
    h.classes_nodup.sublist hsub, h.classes_freed_made, ⟨rfl, h.first.2⟩,
    fun j hj j' hj' => h.numbers j (hsub.subset hj) j' (hsub.subset hj')⟩

/-- The confs of a class are none, or its limit and links let it stay. -/
def Unheld (s : ConfSt) (k : Nat) : Prop :=
  (s.cls k).maxConnections < 0 → (s.cls k).links ≤ 0 →
    ∀ a, s.Live a → (s.conf a).connClass ≠ some k

/-- A class that leaves the list is freed or not. -/
theorem freeUnused_cases {F : FreedRead} (hfree : freeUnused F k s = .ok s') :
    ((s.cls k).links ≤ 0 ∧ s' = freeClass k s) ∨ (0 < (s.cls k).links ∧ s' = s) := by
  rw [freeUnused.eq_def] at hfree
  split at hfree
  next hl =>
    cases F with
    | undefined => cases hfree
    | kept =>
        cases hfree
        exact .inl ⟨hl, rfl⟩
  next hl =>
    cases hfree
    exact .inr ⟨Int.not_le.mp hl, rfl⟩

/-- What the loop does with the classes: the rest of the state is as it was, and those
that stay have limits that let them. -/
theorem checkLoop_fields (F : FreedRead) (rest : List Nat) : ∀ {s : ConfSt} {r : List Nat × ConfSt},
    checkLoop F rest s = .ok r → ∃ freed, r.2 = { s with classesFreed := freed } ∧
      (∀ k ∈ r.1, k ∈ rest ∧ 0 ≤ (s.cls k).maxConnections) ∧
      ∀ k ∈ rest, 0 ≤ (s.cls k).maxConnections → k ∈ r.1 := by
  induction rest with
  | nil =>
      intro s r hr
      cases hr
      exact ⟨_, rfl, fun k hk => absurd hk List.not_mem_nil,
        fun k hk => absurd hk List.not_mem_nil⟩
  | cons k rest ih =>
      intro s r hr
      rw [checkLoop] at hr
      split at hr
      next hmax =>
        obtain ⟨s₁, hfree, hloop⟩ := bind_ok_iff.mp hr
        obtain ⟨freed, hs, hin, hout⟩ := ih hloop
        have hcls : s₁.cls = s.cls ∧ ∃ freed, s₁ = { s with classesFreed := freed } := by
          obtain ⟨-, rfl⟩ | ⟨-, rfl⟩ := freeUnused_cases hfree
          · exact ⟨rfl, _, rfl⟩
          · exact ⟨rfl, _, rfl⟩
        obtain ⟨hcls, freed', rfl⟩ := hcls
        refine ⟨freed, hs, fun j hj => ⟨List.mem_cons_of_mem _ (hin j hj).1, (hin j hj).2⟩,
          fun j hj hle => ?_⟩
        rcases List.mem_cons.mp hj with rfl | hj
        · exact absurd hmax (Int.not_lt.mpr hle)
        · exact hout j hj hle
      next hmax =>
        obtain ⟨r₁, hloop, rfl⟩ := map_ok_iff.mp hr
        obtain ⟨freed, hs, hin, hout⟩ := ih hloop
        refine ⟨freed, hs, fun j hj => ?_, fun j hj hle => ?_⟩
        · rcases List.mem_cons.mp hj with rfl | hj
          · exact ⟨List.mem_cons_self .., Int.not_lt.mp hmax⟩
          · exact ⟨List.mem_cons_of_mem _ (hin j hj).1, (hin j hj).2⟩
        · rcases List.mem_cons.mp hj with rfl | hj
          · exact List.mem_cons_self ..
          · exact List.mem_cons_of_mem _ (hout j hj hle)

theorem checkLoop_sound (F : FreedRead) (rest : List Nat) : ∀ (pre : List Nat) {s : ConfSt}
    {r : List Nat × ConfSt},
    Sound { s with classes := 0 :: (pre ++ rest) } → (∀ k ∈ rest, s.Unheld k) →
      checkLoop F rest s = .ok r → Sound { r.2 with classes := 0 :: (pre ++ r.1) } := by
  induction rest with
  | nil =>
      intro pre s r h _ hr
      cases hr
      exact h
  | cons k rest ih =>
      intro pre s r h hun hr
      have hrest : ∀ j ∈ rest, s.Unheld j := fun j hj => hun j (List.mem_cons_of_mem _ hj)
      rw [checkLoop] at hr
      split at hr
      next hmax =>
        obtain ⟨s₁, hfree, hloop⟩ := bind_ok_iff.mp hr
        obtain ⟨hlinks, rfl⟩ | ⟨-, rfl⟩ := freeUnused_cases hfree
        · have hk := h.classes_live k (List.mem_cons_of_mem _
            (List.mem_append_right _ (List.mem_cons_self ..)))
          have hnot : k ∉ 0 :: (pre ++ rest) := by
            have hnd := h.classes_nodup
            rw [← List.cons_append] at hnd ⊢
            exact (List.nodup_cons.mp (List.nodup_middle.mp hnd)).1
          exact ih pre (s := freeClass k s) (h.unlistClass.freeClass hnot
            (hun k (List.mem_cons_self ..) hmax hlinks) hk.1) hrest hloop
        · exact ih pre h.unlistClass hrest hloop
      next =>
        obtain ⟨r₁, hloop, rfl⟩ := map_ok_iff.mp hr
        have happ : pre ++ k :: rest = pre ++ [k] ++ rest := by
          rw [List.append_assoc, List.singleton_append]
        rw [happ] at h
        have hs := ih (pre ++ [k]) h hrest hloop
        rw [List.append_assoc, List.singleton_append] at hs
        exact hs

/-- The first class stays, and the loop decides about the others. -/
theorem Sound.checkClass_eq (h : Sound s) (F : FreedRead) : checkClass F s =
    (checkLoop F s.classes.tail s).map fun r => { r.2 with classes := 0 :: r.1 } := by
  have htail := h.tail_eq
  rw [checkClass]
  split
  next hnil =>
    rw [hnil] at htail
    cases htail
  next k rest hcons =>
    have hrest : s.classes.tail = rest := by
      rw [hcons]
      rfl
    rw [hcons] at htail
    cases htail
    rw [hrest, if_neg (Int.not_lt.mpr h.first.2.2)]
    rfl

theorem checkClass_sound (h : Sound s) {F : FreedRead} (hun : ∀ k ∈ s.classes, s.Unheld k)
    (hcheck : checkClass F s = .ok s') : Sound s' := by
  have hs : { s with classes := 0 :: ([] ++ s.classes.tail) } = s := by
    rw [List.nil_append, ← h.tail_eq]
  rw [h.checkClass_eq] at hcheck
  obtain ⟨r, hloop, rfl⟩ := map_ok_iff.mp hcheck
  exact checkLoop_sound F s.classes.tail [] (by rw [hs]; exact h)
    (fun k hk => hun k (List.mem_of_mem_tail hk)) hloop

theorem Sound.findClass_mem (h : Sound s) (n : Int) : findClass n s ∈ s.classes := by
  rw [findClass, List.headD_eq_head?_getD, h.first.1]
  cases hf : s.classes.find? fun k => (s.cls k).number = n with
  | none => exact h.head_mem
  | some k => exact List.mem_of_find?_eq_some hf

/-- No class has a number for which the first class is found. -/
theorem Sound.findClass_head (h : Sound s) {n : Int} (hn : n ≠ 0) (hf : findClass n s = 0) :
    ∀ k ∈ s.classes, (s.cls k).number ≠ n := by
  rw [findClass] at hf
  cases hfind : s.classes.find? fun k => (s.cls k).number = n with
  | none => exact fun k hk he => List.find?_eq_none.mp hfind k hk (decide_eq_true he)
  | some k =>
      rw [hfind] at hf
      have hk := List.find?_some hfind
      rw [show k = 0 from hf, h.first.2.1] at hk
      exact absurd (of_decide_eq_true hk).symm hn

/-- A class found for another number than 0 is not the first, and has it. -/
theorem Sound.findClass_number (h : Sound s) {n : Int} (hf : findClass n s ≠ 0) :
    (s.cls (findClass n s)).number = n := by
  have hhead := h.first.1
  rw [findClass, List.headD_eq_head?_getD, hhead] at hf ⊢
  cases hfind : s.classes.find? fun k => (s.cls k).number = n with
  | none =>
      rw [hfind] at hf
      exact absurd rfl hf
  | some k =>
      have hk := List.find?_some hfind
      exact of_decide_eq_true hk

/-- A new class, behind the first one. -/
theorem Sound.newClass (h : Sound s) {cl : ConnClass} (hl : cl.links = 0)
    (hn : ∀ k ∈ s.classes, (s.cls k).number ≠ cl.number) :
    Sound { s with
      cls := update s.cls s.classesMade cl
      classesMade := s.classesMade + 1
      classes := s.classes.take 1 ++ s.classesMade :: s.classes.tail } := by
  have hnew : ∀ k, s.LiveClass k → k ≠ s.classesMade := fun k hk => Nat.ne_of_lt hk.1
  have hperm : (s.classes.take 1 ++ s.classesMade :: s.classes.tail).Perm
      (s.classesMade :: s.classes) := by
    rw [h.tail_eq]
    exact List.perm_middle
  have hmem : ∀ k, k ∈ s.classes.take 1 ++ s.classesMade :: s.classes.tail ↔
      k = s.classesMade ∨ k ∈ s.classes := fun k => hperm.mem_iff.trans List.mem_cons
  have hlive : ∀ k, s.LiveClass k → k < s.classesMade + 1 ∧ k ∉ s.classesFreed :=
    fun k hk => ⟨Nat.lt_succ_of_lt hk.1, hk.2⟩
  have hcls : ∀ k ∈ s.classes, update s.cls s.classesMade cl k = s.cls k := fun k hk =>
    Function.update_of_ne (hnew k (h.classes_live k hk)) ..
  have hzero : update s.cls s.classesMade cl 0 = s.cls 0 := hcls 0 h.head_mem
  refine ⟨h.listed, h.list_nodup, h.attached, h.confs_nodup, h.freed_made, h.freed_nodup,
    h.clients, h.unlisted, fun k hk => ?_, fun a ha k hk => ?_, fun k hk => ?_, ?_,
    fun k hk => ?_, ⟨?_, ?_, ?_⟩, fun k hk k' hk' he => ?_⟩
  · by_cases hkn : k = s.classesMade
    · -- No conf points to a class that has not been made.
      have hzero : s.confs.countP (s.linkedTo s.classesMade) = 0 := by
        refine List.countP_eq_zero.mpr fun p hp hl => ?_
        rw [linkedTo, Bool.and_eq_true, decide_eq_true_eq] at hl
        exact hnew _ (h.class_live _ (h.attached p hp) _ hl.2) rfl
      rw [hkn]
      show (update s.cls s.classesMade cl s.classesMade).links =
        s.confs.countP (s.linkedTo s.classesMade)
      rw [Function.update_self, hl, hzero]
      rfl
    · have hk' : s.LiveClass k := ⟨Nat.lt_of_le_of_ne (Nat.le_of_lt_succ hk.1) hkn, hk.2⟩
      show (update s.cls s.classesMade cl k).links = s.confs.countP (s.linkedTo k)
      rw [Function.update_of_ne hkn]
      exact h.links k hk'
  · exact hlive k (h.class_live a ha k hk)
  · rcases (hmem k).mp hk with hk | hk
    · rw [hk]
      exact ⟨Nat.lt_succ_self _, fun hf => Nat.lt_irrefl _ (h.classes_freed_made _ hf)⟩
    · exact hlive k (h.classes_live k hk)
  · refine hperm.nodup_iff.mpr (List.nodup_cons.mpr ⟨fun hin => ?_, h.classes_nodup⟩)
    exact hnew _ (h.classes_live _ hin) rfl
  · exact Nat.lt_succ_of_lt (h.classes_freed_made k hk)
  · show (s.classes.take 1 ++ s.classesMade :: s.classes.tail).head? = some 0
    rw [h.tail_eq]
    rfl
  · show (update s.cls s.classesMade cl 0).number = 0
    rw [hzero]
    exact h.first.2.1
  · show 0 ≤ (update s.cls s.classesMade cl 0).maxConnections
    rw [hzero]
    exact h.first.2.2
  · change (update s.cls s.classesMade cl k).number =
      (update s.cls s.classesMade cl k').number at he
    rcases (hmem k).mp hk with hk | hk
    · rcases (hmem k').mp hk' with hk' | hk'
      · rw [hk, hk']
      · rw [hk, Function.update_self, hcls k' hk'] at he
        exact absurd he.symm (hn k' hk')
    · rcases (hmem k').mp hk' with hk' | hk'
      · rw [hk', Function.update_self, hcls k hk] at he
        exact absurd he (hn k hk)
      · rw [hcls k hk, hcls k' hk'] at he
        exact h.numbers k hk k' hk' he

/-- What `add_class` leaves of a class that is there. -/
structure ClassesKept (s s' : ConfSt) : Prop where
  conf : s'.conf = s.conf
  confs : s'.confs = s.confs
  live : ∀ a, s'.Live a ↔ s.Live a
  classes : ∀ k, k < s.classesMade → (k ∈ s'.classes ↔ k ∈ s.classes)
  made : s.classesMade ≤ s'.classesMade
  number : ∀ k < s.classesMade, (s'.cls k).number = (s.cls k).number
  links : ∀ k < s.classesMade, (s'.cls k).links = (s.cls k).links

/-- The limit a file declares for a class with a number, the last one if there
are several. -/
def limitIn (classes : List ClassDecl) (number : Int) : Option Int :=
  (classes.reverse.find? fun d => d.num = number).map (·.maxli)

theorem addClass_sound (h : Sound s) (d : ClassDecl) : Sound (addClass s d) ∧
    ClassesKept s (addClass s d) ∧ ∀ k ∈ s.classes, k ≠ 0 →
      ((addClass s d).cls k).maxConnections =
        if d.num = (s.cls k).number then d.maxli else (s.cls k).maxConnections := by
  have hne : ∀ k ∈ s.classes, k ≠ 0 → (s.cls k).number ≠ 0 := by
    intro k hk hk0 hn
    exact hk0 (h.numbers k hk 0 h.head_mem (hn.trans h.first.2.1.symm))
  rw [addClass]
  split
  next hnum =>
    refine ⟨h, ⟨rfl, rfl, fun _ => Iff.rfl, fun _ _ => Iff.rfl, Nat.le_refl _, fun _ _ => rfl,
      fun _ _ => rfl⟩, fun k hk hk0 => ?_⟩
    rw [hnum, if_neg fun he => hne k hk hk0 he.symm]
  next hnum =>
    dsimp only
    split
    next hhead =>
      rw [h.first.1] at hhead
      have hnot := h.findClass_head hnum (Option.some.inj hhead).symm
      have hcls : ∀ (cl : ConnClass) (k : Nat), k < s.classesMade →
          update s.cls s.classesMade cl k = s.cls k :=
        fun cl k hk => Function.update_of_ne (Nat.ne_of_lt hk) ..
      refine ⟨h.newClass rfl hnot, ⟨rfl, rfl, fun _ => Iff.rfl, fun k hk => ?_,
        Nat.le_succ _, fun k hk => ?_, fun k hk => ?_⟩, fun k hk hk0 => ?_⟩
      · have hsplit : s.classes = s.classes.take 1 ++ s.classes.tail := by
          rw [h.tail_eq]
          rfl
        show k ∈ s.classes.take 1 ++ s.classesMade :: s.classes.tail ↔ k ∈ s.classes
        rw [List.perm_middle.mem_iff, ← hsplit, List.mem_cons,
          or_iff_right (Nat.ne_of_lt hk)]
      · exact congrArg ConnClass.number (hcls _ k hk)
      · exact congrArg ConnClass.links (hcls _ k hk)
      · have hn : ¬ d.num = (s.cls k).number := fun he => hnot k hk he.symm
        rw [if_neg hn]
        exact congrArg ConnClass.maxConnections (hcls _ k (h.classes_live k hk).1)
    next hhead =>
      have hf : findClass d.num s ≠ 0 := fun he => hhead (by rw [he]; exact h.first.1)
      have hnumber := h.findClass_number hf
      have hfm := h.findClass_mem d.num
      generalize findClass d.num s = tmp at hf hnumber hfm
      have hcls : ∀ cl k, (s.setClass tmp cl).cls k = if k = tmp then cl else s.cls k :=
        fun cl k => Function.update_apply ..
      refine ⟨h.limits rfl (fun k _ => ?_) (fun k _ => ?_) ?_, ⟨rfl, rfl, fun _ => Iff.rfl,
        fun _ _ => Iff.rfl, Nat.le_refl _, fun k _ => ?_, fun k _ => ?_⟩, fun k hk hk0 => ?_⟩
      all_goals rw [hcls]
      · split
        next he => rw [he, hnumber]
        next => rfl
      · split
        next he => rw [he]
        next => rfl
      · rw [if_neg hf.symm]
        exact h.first.2.2
      · split
        next he => rw [he, hnumber]
        next => rfl
      · split
        next he => rw [he]
        next => rfl
      · by_cases he : k = tmp
        · rw [if_pos he, he, hnumber, if_pos rfl]
        · rw [if_neg he, if_neg fun hn => he (h.numbers k hk tmp hfm (hn.symm.trans hnumber.symm))]

theorem ClassesKept.trans {s₁ s₂ : ConfSt} (h : ClassesKept s s₁) (h' : ClassesKept s₁ s₂) :
    ClassesKept s s₂ := by
  refine ⟨h'.conf.trans h.conf, h'.confs.trans h.confs, fun a => (h'.live a).trans (h.live a),
    fun k hk => ?_, Nat.le_trans h.made h'.made, fun k hk => ?_, fun k hk => ?_⟩
  · exact (h'.classes k (Nat.lt_of_lt_of_le hk h.made)).trans (h.classes k hk)
  · exact (h'.number k (Nat.lt_of_lt_of_le hk h.made)).trans (h.number k hk)
  · exact (h'.links k (Nat.lt_of_lt_of_le hk h.made)).trans (h.links k hk)

theorem addClasses_sound (ds : List ClassDecl) : ∀ {s : ConfSt}, Sound s →
    Sound (ds.foldl addClass s) ∧ ClassesKept s (ds.foldl addClass s) ∧
      ∀ k ∈ s.classes, k ≠ 0 → ((ds.foldl addClass s).cls k).maxConnections =
        (limitIn ds (s.cls k).number).getD (s.cls k).maxConnections := by
  induction ds with
  | nil =>
      exact fun h => ⟨h, ⟨rfl, rfl, fun _ => Iff.rfl, fun _ _ => Iff.rfl, Nat.le_refl _,
        fun _ _ => rfl, fun _ _ => rfl⟩, fun _ _ _ => rfl⟩
  | cons d ds ih =>
      intro s h
      obtain ⟨h₁, hk₁, hmax₁⟩ := addClass_sound h d
      obtain ⟨h₂, hk₂, hmax₂⟩ := ih h₁
      rw [List.foldl_cons]
      refine ⟨h₂, hk₁.trans hk₂, fun k hk hk0 => ?_⟩
      have hlt := (h.classes_live k hk).1
      rw [hmax₂ k ((hk₁.classes k hlt).mpr hk) hk0, hk₁.number k hlt, hmax₁ k hk hk0]
      simp only [limitIn, List.reverse_cons, List.find?_append, List.find?_singleton,
        decide_eq_true_eq]
      cases ds.reverse.find? fun d => d.num = (s.cls k).number with
      | some d' => rfl
      | none =>
          by_cases hd : d.num = (s.cls k).number
          · rw [if_pos hd, if_pos hd]
            rfl
          · rw [if_neg hd, if_neg hd]
            rfl

/-! ## New confs -/

theorem Sound.confAddClassToConf_mem (h : Sound s) (number : Option Int) :
    confAddClassToConf number s ∈ s.classes := by
  rw [confAddClassToConf.eq_def]
  split
  · exact h.findClass_mem 0
  · dsimp only
    split
    · exact h.findClass_mem 0
    · exact h.findClass_mem _

theorem confAddConf_sound (h : Sound s) (d : ConfDecl) : Sound (confAddConf s d) := by
  have hold : ∀ a, s.Live a → a ≠ s.made := fun a ha => Nat.ne_of_lt ha.1
  have hk := h.classes_live _ (h.confAddClassToConf_mem d.number)
  have hlive : ∀ a, (confAddConf s d).Live a ↔ s.Live a ∨ a = s.made := by
    intro a
    rw [Live, Live]
    refine ⟨fun ⟨hlt, hno⟩ => ?_, fun ha => ?_⟩
    · by_cases he : a = s.made
      · exact Or.inr he
      · exact Or.inl ⟨Nat.lt_of_le_of_ne (Nat.le_of_lt_succ hlt) he, hno⟩
    · rcases ha with ⟨hlt, hno⟩ | he
      · exact ⟨Nat.lt_succ_of_lt hlt, hno⟩
      · rw [he]
        exact ⟨Nat.lt_succ_self _, fun hf => Nat.lt_irrefl _ (h.freed_made _ hf)⟩
  have hconf : ∀ a, s.Live a → (confAddConf s d).conf a = s.conf a := fun a ha =>
    Function.update_of_ne (hold a ha) ..
  have hself : (confAddConf s d).conf s.made =
      ⟨d.status, 0, some (confAddClassToConf d.number s)⟩ := Function.update_self ..
  refine ⟨fun a ha => ?_, ?_, fun p hp => (hlive _).mpr (Or.inl (h.attached p hp)),
    h.confs_nodup, fun a ha => Nat.lt_succ_of_lt (h.freed_made a ha), h.freed_nodup,
    fun a ha => ?_, fun a ha => ?_, fun k hk => ?_, fun a ha k hak => ?_, h.classes_live,
    h.classes_nodup, h.classes_freed_made, h.first, h.numbers⟩
  · rcases List.mem_cons.mp ha with ha | ha
    · exact (hlive a).mpr (Or.inr ha)
    · exact (hlive a).mpr (Or.inl (h.listed a ha))
  · exact List.nodup_cons.mpr ⟨fun hin => hold _ (h.listed _ hin) rfl, h.list_nodup⟩
  · show ((confAddConf s d).conf a).clients = s.confs.countP fun p => decide (p.2 = a)
    rcases (hlive a).mp ha with ha | ha
    · rw [hconf a ha]
      exact h.clients a ha
    · have hzero : (s.confs.countP fun p => decide (p.2 = a)) = 0 :=
        List.countP_eq_zero.mpr fun p hp he =>
          hold _ (h.attached p hp) ((of_decide_eq_true he).trans ha)
      rw [hzero, ha, hself]
      rfl
  · rcases (hlive a).mp ha with ha | ha
    · rw [hconf a ha]
      exact (h.unlisted a ha).imp (List.mem_cons_of_mem _) id
    · rw [ha]
      exact Or.inl (List.mem_cons_self ..)
  · refine (h.links k hk).trans (congrArg Int.ofNat (List.countP_congr fun p hp => ?_))
    rw [linkedTo, linkedTo, hconf _ (h.attached p hp)]
  · rcases (hlive a).mp ha with ha | ha
    · rw [hconf a ha] at hak
      exact h.class_live a ha k hak
    · rw [ha, hself] at hak
      cases hak
      exact hk

/-! ## Attaching -/

/-- A client more for a conf, which its class counts. -/
theorem Sound.attach (h : Sound s) {c : Nat} (ha : s.Live a) (hnot : (c, a) ∉ s.confs)
    {conf' : Nat → ConfItem} {cls' : Nat → ConnClass}
    (hconf : ∀ b, conf' b =
      { s.conf b with clients := (s.conf b).clients + if a = b then 1 else 0 })
    (hcls : ∀ k, (cls' k).number = (s.cls k).number ∧
      (cls' k).maxConnections = (s.cls k).maxConnections ∧
      (cls' k).links = (s.cls k).links + if s.linkedTo k (c, a) then 1 else 0) :
    Sound { s with conf := conf', confs := (c, a) :: s.confs, cls := cls' } := by
  have hclass : ∀ b, (conf' b).connClass = (s.conf b).connClass := fun b => by rw [hconf]
  have hlinked : ∀ k, linkedTo { s with
      conf := conf', confs := (c, a) :: s.confs, cls := cls' } k = s.linkedTo k := by
    intro k
    funext p
    simp only [linkedTo, hconf, ConfItem.counted]
  refine ⟨h.listed, h.list_nodup, fun p hp => ?_, List.nodup_cons.mpr ⟨hnot, h.confs_nodup⟩,
    h.freed_made, h.freed_nodup, fun b hb => ?_, fun b hb => ?_, fun k hk => ?_,
    fun b hb k hk => h.class_live b hb k ((hclass b).symm.trans hk), h.classes_live,
    h.classes_nodup, h.classes_freed_made, ⟨h.first.1, ?_, ?_⟩, fun k hk k' hk' he => ?_⟩
  · rcases List.mem_cons.mp hp with hp | hp
    · rw [hp]
      exact ha
    · exact h.attached p hp
  · show (conf' b).clients = ((c, a) :: s.confs).countP fun p => decide (p.2 = b)
    rw [hconf, List.countP_cons, Int.natCast_add, ← h.clients b hb]
    by_cases hab : a = b
    · simp only [hab, if_true, decide_true, Int.natCast_one]
    · simp only [hab, if_false, decide_false, Bool.false_eq_true, Int.natCast_zero]
  · refine (h.unlisted b hb).imp id fun ⟨hi, hc⟩ => ?_
    show (conf' b).illegal = true ∧ (conf' b).clients ≠ 0
    rw [hconf]
    refine ⟨hi, ?_⟩
    rw [h.clients b hb] at hc ⊢
    dsimp only
    split <;> omega
  · show (cls' k).links = ((c, a) :: s.confs).countP _
    rw [hlinked, (hcls k).2.2, List.countP_cons, Int.natCast_add, ← h.links k hk]
    split <;> rfl
  · exact (hcls 0).1.trans h.first.2.1
  · show 0 ≤ (cls' 0).maxConnections
    rw [(hcls 0).2.1]
    exact h.first.2.2
  · change (cls' k).number = (cls' k').number at he
    rw [(hcls k).1, (hcls k').1] at he
    exact h.numbers k hk k' hk' he

theorem attachConf_sound (h : Sound s) {c : Nat} (ha : s.Live a) {r : Int}
    (hat : attachConf c a s = .ok (r, s')) : Sound s' := by
  rw [attachConf] at hat
  split at hat
  next =>
    cases hat
    exact h
  next hnot =>
    split at hat
    next =>
      cases hat
      exact h
    next =>
      have hconf : ∀ b, (s.setConf a { s.conf a with clients := (s.conf a).clients + 1 }).conf b =
          { s.conf b with clients := (s.conf b).clients + if a = b then 1 else 0 } := by
        intro b
        by_cases hb : b = a
        · rw [hb, setConf_self, if_pos rfl]
        · rw [setConf_of_ne hb, if_neg fun he => hb he.symm, Int.add_zero]
      have hself : (s.setConf a { s.conf a with clients := (s.conf a).clients + 1 }).conf a =
          { s.conf a with clients := (s.conf a).clients + 1 } := setConf_self
      change (if ((s.setConf a { s.conf a with clients := (s.conf a).clients + 1 }).conf a).counted
        then _ else _) = _ at hat
      split at hat
      next hc =>
        rw [hself] at hc
        split at hat
        next => cases hat
        next k hk =>
          cases hat
          change ((s.setConf a _).conf a).connClass = some k at hk
          rw [hself] at hk
          refine h.attach ha hnot hconf fun j => ?_
          have hlink : s.linkedTo j (c, a) = decide (j = k) := by
            rw [linkedTo, show (s.conf a).counted = true from hc, Bool.true_and]
            refine decide_eq_decide.mpr ⟨fun he => Option.some.inj (he.symm.trans hk), fun he => ?_⟩
            rw [he]
            exact hk
          rw [hlink]
          change ((update s.cls k _ j).number = _ ∧ (update s.cls k _ j).maxConnections = _ ∧
            (update s.cls k _ j).links = _)
          by_cases hj : j = k
          · rw [hj, Function.update_self]
            refine ⟨rfl, rfl, ?_⟩
            rw [decide_eq_true rfl, if_pos rfl]
            rfl
          · rw [Function.update_of_ne hj, decide_eq_false hj]
            exact ⟨rfl, rfl, (Int.add_zero _).symm⟩
      next hc =>
        cases hat
        refine h.attach ha hnot hconf fun k => ⟨rfl, rfl, ?_⟩
        have hno : s.linkedTo k (c, a) = false := by
          rw [hself] at hc
          rw [linkedTo, Bool.and_eq_false_iff]
          exact Or.inl (Bool.eq_false_iff.mpr hc)
        rw [hno]
        exact (Int.add_zero _).symm

/-! ## Detaching -/

/-- A client less for a conf, which its class counts, and which goes if it is
illegal and that was its last. -/
theorem Sound.detach (h : Sound s) {c : Nat} (hin : (c, a) ∈ s.confs)
    {conf' : Nat → ConfItem} {cls' : Nat → ConnClass} {freed' : List Nat}
    (hconf : ∀ b, conf' b =
      { s.conf b with clients := (s.conf b).clients - if a = b then 1 else 0 })
    (hcls : ∀ k, (cls' k).number = (s.cls k).number ∧
      (cls' k).maxConnections = (s.cls k).maxConnections ∧
      (cls' k).links = (s.cls k).links - if s.linkedTo k (c, a) then 1 else 0)
    (hfreed : ((s.conf a).clients = 1 ∧ (s.conf a).illegal = true ∧ a ∉ s.list ∧
        freed' = a :: s.freed) ∨
      (¬ ((s.conf a).clients = 1 ∧ (s.conf a).illegal = true) ∧ freed' = s.freed)) :
    Sound { s with
      conf := conf', freed := freed', confs := s.confs.erase (c, a), cls := cls' } := by
  have ha : s.Live a := h.attached _ hin
  have hperm := List.perm_cons_erase hin
  have hcount : ∀ q : Nat × Nat → Bool,
      s.confs.countP q = (s.confs.erase (c, a)).countP q + if q (c, a) then 1 else 0 :=
    fun q => (hperm.countP_eq q).trans List.countP_cons
  have hsub : ∀ p ∈ s.confs.erase (c, a), p ∈ s.confs := fun p hp => List.mem_of_mem_erase hp
  have hclass : ∀ b, (conf' b).connClass = (s.conf b).connClass := fun b => by rw [hconf]
  have hlinked : ∀ k, linkedTo { s with
      conf := conf', freed := freed', confs := s.confs.erase (c, a), cls := cls' } k =
        s.linkedTo k := by
    intro k
    funext p
    simp only [linkedTo, hconf, ConfItem.counted]
  -- Who holds the conf now, if it goes.
  have hlast : a ∈ freed' → ∀ p ∈ s.confs.erase (c, a), p.2 ≠ a := by
    intro hf p hp hpa
    rcases hfreed with ⟨hone, -, -, -⟩ | ⟨-, he⟩
    · rw [h.clients a ha, hcount] at hone
      simp only [decide_true, if_true] at hone
      have hzero : (s.confs.erase (c, a)).countP (fun p => decide (p.2 = a)) = 0 := by omega
      exact List.countP_eq_zero.mp hzero p hp (decide_eq_true hpa)
    · rw [he] at hf
      exact ha.2 hf
  have hlive : ∀ b, (b < s.made ∧ b ∉ freed') ↔ s.Live b ∧ b ∉ freed' := by
    intro b
    refine ⟨fun hb => ⟨⟨hb.1, fun hf => hb.2 ?_⟩, hb.2⟩, fun hb => ⟨hb.1.1, hb.2⟩⟩
    rcases hfreed with ⟨-, -, -, he⟩ | ⟨-, he⟩
    · rw [he]
      exact List.mem_cons_of_mem _ hf
    · rw [he]
      exact hf
  have hnew : ∀ b, b ∈ freed' → b ∈ s.freed ∨ b = a ∧ a ∉ s.list := by
    intro b hb
    rcases hfreed with ⟨-, -, hl, he⟩ | ⟨-, he⟩
    · rw [he] at hb
      exact (List.mem_cons.mp hb).symm.imp id fun hba => ⟨hba, hl⟩
    · rw [he] at hb
      exact Or.inl hb
  refine ⟨fun b hb => (hlive b).mpr ⟨h.listed b hb, fun hf => ?_⟩,
    h.list_nodup, fun p hp => (hlive _).mpr ⟨h.attached p (hsub p hp), fun hf => ?_⟩,
    h.confs_nodup.erase _, fun b hb => ?_, ?_, fun b hb => ?_, fun b hb => ?_, fun k hk => ?_,
    fun b hb k hk => h.class_live b ((hlive b).mp hb).1 k ((hclass b).symm.trans hk),
    h.classes_live, h.classes_nodup, h.classes_freed_made, ⟨h.first.1, ?_, ?_⟩,
    fun k hk k' hk' he => ?_⟩
  · rcases hnew b hf with hf | ⟨hba, hl⟩
    · exact (h.listed b hb).2 hf
    · rw [hba] at hb
      exact hl hb
  · rcases hnew _ hf with hf' | ⟨hpa, -⟩
    · exact (h.attached p (hsub p hp)).2 hf'
    · rw [hpa] at hf
      exact hlast hf p hp hpa
  · rcases hnew b hb with hb | ⟨hba, -⟩
    · exact h.freed_made b hb
    · rw [hba]
      exact ha.1
  · rcases hfreed with ⟨-, -, -, he⟩ | ⟨-, he⟩
    · rw [he]
      exact List.nodup_cons.mpr ⟨ha.2, h.freed_nodup⟩
    · rw [he]
      exact h.freed_nodup
  · show (conf' b).clients = (s.confs.erase (c, a)).countP fun p => decide (p.2 = b)
    rw [hconf, h.clients b ((hlive b).mp hb).1, hcount, Int.natCast_add]
    by_cases hab : a = b
    · simp only [hab, decide_true, if_true, Int.natCast_one, Int.add_sub_cancel]
    · simp only [hab, decide_false, Bool.false_eq_true, if_false, Int.natCast_zero, Int.add_zero,
        Int.sub_zero]
  · obtain ⟨hbl, hbf⟩ := (hlive b).mp hb
    refine (h.unlisted b hbl).imp id fun ⟨hi, hc⟩ => ?_
    show (conf' b).illegal = true ∧ (conf' b).clients ≠ 0
    rw [hconf]
    refine ⟨hi, fun hz => ?_⟩
    by_cases hab : a = b
    · rw [← hab] at hi hz hbf
      simp only [if_true] at hz
      rcases hfreed with ⟨-, -, -, he⟩ | ⟨hno, -⟩
      · rw [he] at hbf
        exact hbf (List.mem_cons_self ..)
      · exact hno ⟨by omega, hi⟩
    · simp only [hab, if_false, Int.sub_zero] at hz
      exact hc hz
  · show (cls' k).links = (s.confs.erase (c, a)).countP _
    rw [hlinked, (hcls k).2.2, h.links k hk, hcount, Int.natCast_add]
    split
    · exact Int.add_sub_cancel ..
    · exact (Int.sub_zero _).trans (Int.add_zero _)
  · exact (hcls 0).1.trans h.first.2.1
  · show 0 ≤ (cls' 0).maxConnections
    rw [(hcls 0).2.1]
    exact h.first.2.2
  · change (cls' k).number = (cls' k').number at he
    rw [(hcls k).1, (hcls k').1] at he
    exact h.numbers k hk k' hk' he

/-- A conf loses its class, which has no links. -/
theorem Sound.unclass (h : Sound s) (hk : (s.conf a).connClass = some k)
    (hlinks : (s.cls k).links = 0) (hlive : s.LiveClass k) :
    Sound (s.setConf a { s.conf a with connClass := none }) := by
  have hconf : ∀ b, ((s.setConf a { s.conf a with connClass := none }).conf b).clients =
      (s.conf b).clients ∧
      ((s.setConf a { s.conf a with connClass := none }).conf b).illegal = (s.conf b).illegal := by
    intro b
    by_cases hb : b = a
    · rw [hb, setConf_self]
      exact ⟨rfl, rfl⟩
    · rw [setConf_of_ne hb]
      exact ⟨rfl, rfl⟩
  refine ⟨h.listed, h.list_nodup, h.attached, h.confs_nodup, h.freed_made, h.freed_nodup,
    fun b hb => (hconf b).1.trans (h.clients b hb), fun b hb => ?_, fun j hj => ?_,
    fun b hb j hj => ?_, h.classes_live, h.classes_nodup, h.classes_freed_made, h.first, h.numbers⟩
  · rw [(hconf b).1, (hconf b).2]
    exact h.unlisted b hb
  · refine (h.links j hj).trans (congrArg Int.ofNat (List.countP_congr fun p hp => ?_))
    by_cases hpa : p.2 = a
    · have hno : s.linkedTo j p = false := by
        by_cases hjk : j = k
        · have hzero := h.links k hlive
          rw [hlinks] at hzero
          have := List.countP_eq_zero.mp (Int.ofNat.inj hzero.symm) p hp
          rw [hjk]
          exact Bool.eq_false_iff.mpr this
        · rw [linkedTo, hpa, hk, Bool.and_eq_false_iff]
          exact Or.inr (decide_eq_false fun he => hjk (Option.some.inj he).symm)
      rw [hno, linkedTo, hpa, setConf_self]
      simp
    · rw [linkedTo, linkedTo, setConf_of_ne hpa]
  · by_cases hb' : b = a
    · rw [hb', setConf_self] at hj
      cases hj
    · rw [setConf_of_ne hb'] at hj
      exact h.class_live b hb j hj

/-! ## Calls -/

/-- The call frees no conf that is on the list, and no class that is, or that
another conf points to. -/
def Spares (s : ConfSt) : ConfOp → Prop
  | .detachConf c a => (c, a) ∈ s.confs →
      ((s.conf a).clients = 1 → (s.conf a).illegal = true → a ∉ s.list) ∧
        ∀ k ∈ (s.conf a).connClass, (s.cls k).maxConnections = -1 →
          (s.cls k).links = (if (s.conf a).counted then 1 else 0) →
            k ∉ s.classes ∧ ∀ b, s.Live b → (s.conf b).connClass = some k → b = a
  | .readConfFiles (some file) => ∀ p ∈ s.confs, ∀ k ∈ s.classes, k ≠ 0 →
      (s.conf p.2).connClass = some k → (s.cls k).links = 0 →
        (limitIn file.classes (s.cls k).number).any (0 ≤ ·) = true
  | .checkClass => ∀ k ∈ s.classes, s.Unheld k
  | _ => True

theorem unlinkConf_sound (h : Sound s) {c : Nat} (hin : (c, a) ∈ s.confs)
    (hoff : (s.conf a).clients = 1 → (s.conf a).illegal = true → a ∉ s.list)
    {cls' : Nat → ConnClass} (hcls : ∀ k, (cls' k).number = (s.cls k).number ∧
      (cls' k).maxConnections = (s.cls k).maxConnections ∧
      (cls' k).links = (s.cls k).links - if s.linkedTo k (c, a) then 1 else 0) :
    Sound (unlinkConf c a { s with cls := cls' }) := by
  have hconf : ∀ b, (s.setConf a { s.conf a with clients := (s.conf a).clients - 1 }).conf b =
      { s.conf b with clients := (s.conf b).clients - if a = b then 1 else 0 } := by
    intro b
    by_cases hb : b = a
    · rw [hb, setConf_self, if_pos rfl]
    · rw [setConf_of_ne hb, if_neg fun he => hb he.symm, Int.sub_zero]
  rw [unlinkConf]
  simp only [setConf_self]
  split
  next hgo =>
    have hone : (s.conf a).clients = 1 := Int.sub_eq_zero.mp hgo.1
    exact h.detach hin hconf hcls (Or.inl ⟨hone, hgo.2, hoff hone hgo.2, rfl⟩)
  next hgo =>
    refine h.detach hin hconf hcls (Or.inr ⟨fun ⟨hone, hi⟩ => hgo ⟨?_, hi⟩, rfl⟩)
    exact Int.sub_eq_zero.mpr hone

/-- What `unlinkConf` leaves of the conf, and of all that is not one. -/
theorem unlinkConf_fields (c a : Nat) (s : ConfSt) :
    (unlinkConf c a s).conf =
        (s.setConf a { s.conf a with clients := (s.conf a).clients - 1 }).conf ∧
      (unlinkConf c a s).cls = s.cls ∧ (unlinkConf c a s).classes = s.classes ∧
      (∀ k, (unlinkConf c a s).LiveClass k ↔ s.LiveClass k) ∧
      ∀ b, (unlinkConf c a s).Live b → s.Live b := by
  rw [unlinkConf]
  dsimp only
  split
  · exact ⟨rfl, rfl, rfl, fun _ => Iff.rfl,
      fun b hb => ⟨hb.1, fun hf => hb.2 (List.mem_cons_of_mem _ hf)⟩⟩
  · exact ⟨rfl, rfl, rfl, fun _ => Iff.rfl, fun b hb => hb⟩

/-- Letting go of the class of a conf, and of the conf, go in either order. -/
theorem unlinkConf_comm (c a k : Nat) (s : ConfSt) :
    unlinkConf c a ((freeClass k s).setConf a { s.conf a with connClass := none }) =
      freeClass k ((unlinkConf c a s).setConf a
        { (unlinkConf c a s).conf a with connClass := none }) := by
  simp only [unlinkConf, setConf_self, ConfItem.illegal]
  split
  · simp only [setConf, freeClass, freeConf, Function.update_idem, Function.update_self]
  · simp only [setConf, freeClass, Function.update_idem, Function.update_self]

theorem detachConf_sound (h : Sound s) {c : Nat} (hspare : s.Spares (.detachConf c a)) :
    Sound (detachConf c a s).2 := by
  rw [detachConf]
  split
  next hin =>
    obtain ⟨hoff, hclass⟩ := hspare hin
    show Sound (unlinkConf c a (unlinkClass a s))
    cases hk : (s.conf a).connClass with
    | none =>
        have hno : ∀ k, s.linkedTo k (c, a) = false := by
          intro k
          rw [linkedTo, hk, Bool.and_eq_false_iff]
          exact Or.inr (decide_eq_false (Option.some_ne_none k).symm)
        have hs : unlinkClass a s = { s with cls := s.cls } := by
          rw [unlinkClass, hk]
        rw [hs]
        refine unlinkConf_sound h hin hoff fun k => ⟨rfl, rfl, ?_⟩
        rw [hno]
        exact (Int.sub_zero _).symm
    | some k =>
        have hlive := h.class_live a (h.attached _ hin) k hk
        have hlinked : s.linkedTo k (c, a) = (s.conf a).counted := by
          rw [linkedTo, hk, decide_eq_true rfl, Bool.and_true]
        have hpos : (s.conf a).counted = true → 0 < (s.cls k).links := by
          intro hc
          rw [h.links k hlive, Int.natCast_pos]
          exact List.countP_pos_iff.mpr ⟨(c, a), hin, hlinked.trans hc⟩
        have hfirst : ∃ cls', (if (s.conf a).counted = true ∧ 0 < (s.cls k).links then
              s.setClass k { s.cls k with links := (s.cls k).links - 1 } else s) =
              { s with cls := cls' } ∧ ∀ j, (cls' j).number = (s.cls j).number ∧
            (cls' j).maxConnections = (s.cls j).maxConnections ∧
            (cls' j).links = (s.cls j).links - if s.linkedTo j (c, a) then 1 else 0 := by
          split
          next hc =>
            refine ⟨_, rfl, fun j => ?_⟩
            by_cases hj : j = k
            · rw [hj, Function.update_self, hlinked, if_pos hc.1]
              exact ⟨rfl, rfl, rfl⟩
            · have hno : s.linkedTo j (c, a) = false := by
                rw [linkedTo, hk, Bool.and_eq_false_iff]
                exact Or.inr (decide_eq_false fun he => hj (Option.some.inj he).symm)
              rw [Function.update_of_ne hj, hno]
              exact ⟨rfl, rfl, (Int.sub_zero _).symm⟩
          next hc =>
            refine ⟨s.cls, rfl, fun j => ⟨rfl, rfl, ?_⟩⟩
            have hno : (s.conf a).counted = false :=
              Bool.eq_false_iff.mpr fun hc' => hc ⟨hc', hpos hc'⟩
            rw [linkedTo, hno]
            exact (Int.sub_zero _).symm
        obtain ⟨cls', hfirst, hcls⟩ := hfirst
        have hs := unlinkConf_sound h hin hoff hcls
        rw [unlinkClass, hk]
        dsimp only
        rw [hfirst]
        split
        next hfree =>
          change (cls' k).maxConnections = -1 ∧ (cls' k).links = 0 at hfree
          rw [(hcls k).2.1, (hcls k).2.2, hlinked] at hfree
          obtain ⟨hoffk, honly⟩ := hclass k hk hfree.1 (Int.sub_eq_zero.mp hfree.2)
          rw [unlinkConf_comm]
          obtain ⟨hconf', hcls', hclasses', hlive', hdead⟩ :=
            unlinkConf_fields c a { s with cls := cls' }
          generalize unlinkConf c a { s with cls := cls' } = t
            at hs hconf' hcls' hclasses' hlive' hdead ⊢
          have hka : (t.conf a).connClass = some k := by
            rw [hconf', setConf_self]
            exact hk
          have hzero : (t.cls k).links = 0 := by
            rw [hcls', (hcls k).2.2, hlinked]
            exact hfree.2
          have hkt : t.LiveClass k := (hlive' k).mpr hlive
          refine (hs.unclass hka hzero hkt).freeClass (fun hkc => hoffk ?_) (fun b hb => ?_) hkt.1
          · rw [← show t.classes = s.classes from hclasses']
            exact hkc
          · by_cases hba : b = a
            · rw [hba, setConf_self]
              exact (Option.some_ne_none k).symm
            · rw [setConf_of_ne hba, hconf', setConf_of_ne hba]
              exact fun hbk => hba (honly b (hdead b hb) hbk)
        next => exact hs
  next => exact h

/-- The classes of an emptied configuration are declared, and checked. -/
theorem checkClasses_sound (h : Sound s) {F : FreedRead} {file : ConfFile}
    (hspare : s.Spares (.readConfFiles (some file)))
    (hcheck : checkClass F (file.classes.foldl addClass (markClasses (clearConfs s))) = .ok s') :
    Sound s' := by
  obtain ⟨h₁, hsame, hused⟩ := clearConfs_sound h
  have h₂ := markClasses_sound h₁
  obtain ⟨h₃, hkept, hmax⟩ := addClasses_sound file.classes h₂
  have hun : ∀ k ∈ (file.classes.foldl addClass (markClasses (clearConfs s))).classes,
      Unheld (file.classes.foldl addClass (markClasses (clearConfs s))) k := by
    intro k hk hneg hlinks a ha hak
    have hconf : (file.classes.foldl addClass (markClasses (clearConfs s))).conf =
        (clearConfs s).conf := hkept.conf
    have ha₁ : (clearConfs s).Live a := (hkept.live a).mp ha
    rw [hconf] at hak
    have hkm : k < (markClasses (clearConfs s)).classesMade := (h₁.class_live a ha₁ k hak).1
    have hk₁ : k ∈ (clearConfs s).classes := (hkept.classes k hkm).mp hk
    have hk0 : k ≠ 0 := by
      intro he
      rw [he] at hneg
      exact Int.not_lt.mpr h₃.first.2.2 hneg
    -- A conf that is still there is in use, so that its class was declared or has links.
    have hused' : ((clearConfs s).conf a).clients ≠ 0 := by
      rw [hsame.clients]
      exact hused a ha₁
    obtain ⟨c, hc⟩ := (h₁.attached_iff ha₁).mp hused'
    rw [hsame.confs] at hc
    rw [hsame.connClass] at hak
    have hks : k ∈ s.classes := by
      rw [← hsame.classes]
      exact hk₁
    obtain ⟨hnumber, hlinks₂⟩ := markClasses_cls (clearConfs s) k
    rw [hkept.links k hkm, hlinks₂, hsame.cls] at hlinks
    have hzero : (s.cls k).links = 0 := by
      have hcount := h.links k (h.classes_live k hks)
      omega
    have hlimit := hspare (c, a) hc k hks hk0 hak hzero
    rw [hmax k hk₁ hk0, hnumber, hsame.cls] at hneg
    cases hl : limitIn file.classes (s.cls k).number with
    | none =>
        rw [hl] at hlimit
        cases hlimit
    | some limit =>
        rw [hl] at hlimit hneg
        exact Int.not_lt.mpr (of_decide_eq_true hlimit) hneg
  exact checkClass_sound h₃ hun hcheck

theorem confAddConfs_sound (ds : List ConfDecl) :
    ∀ {s : ConfSt}, Sound s → Sound (ds.foldl confAddConf s) := by
  induction ds with
  | nil => exact fun h => h
  | cons d ds ih => exact fun h => ih (confAddConf_sound h d)

theorem readConfFiles_sound (h : Sound s) {F : FreedRead} {file : Option ConfFile}
    (hspare : s.Spares (.readConfFiles file)) (hread : readConfFiles F file s = .ok s') :
    Sound s' := by
  cases file with
  | none =>
      cases hread
      exact h
  | some file =>
      obtain ⟨s₄, hcheck, rfl⟩ := map_ok_iff.mp hread
      exact confAddConfs_sound file.confs (checkClasses_sound h hspare hcheck)

theorem step_sound {F : FreedRead} (op : ConfOp) (h : Sound s) (hspare : s.Spares op)
    (hstep : step F s op = .ok s') : Sound s' := by
  rw [step.eq_def] at hstep
  split at hstep
  case isFalse => cases hstep
  case isTrue hread =>
    cases op with
    | attachConf c a =>
        obtain ⟨⟨r, s₁⟩, hat, rfl⟩ := map_ok_iff.mp hstep
        exact attachConf_sound h hread.1 hat
    | detachConf c a =>
        cases hstep
        exact detachConf_sound h hspare
    | readConfFiles file => exact readConfFiles_sound h hspare hstep
    | addClass d =>
        cases hstep
        exact (addClass_sound h d).1
    | checkClass => exact checkClass_sound h hspare hstep
    | flushDeletedIP =>
        cases hstep
        exact flushDeletedIP_sound h

end ConfSt

end TrIrcd
