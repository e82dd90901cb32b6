import TrIrcd.Proofs.ServerTree

/-!
# When the lists of a server break

`add_client_to_llist` takes two NULL links to mean that the client is on no list.
They also belong to the only client of a list, which is therefore added to its list
again: its `lnext` and its `lprev` then point to itself, and the list has no end
(`add_sole`). An add that the code is there to ignore is ignored everywhere else, and
in a run without such an add the lists hold what has been added and not deleted since
(`llistRun_keeps`).
-/

namespace TrIrcd

open Function (update)
open TrIrcd.Lib

inductive LlistOp
  | add (bucket : TreeList) (aclient : Nat)
  | del (bucket : TreeList) (aclient : Nat)
deriving DecidableEq

namespace LlistOp

def run (L : Links TreeList Nat) : LlistOp → Links TreeList Nat
  | add bucket aclient => addClientToLlist bucket aclient L
  | del bucket aclient => delClientFromLlist bucket aclient L

/-- Who has been added to a bucket and not been deleted since. -/
def apply (M : TreeList → Nat → Bool) : LlistOp → TreeList → Nat → Bool
  | add bucket aclient => fun k x => if k = bucket ∧ x = aclient then true else M k x
  | del bucket aclient => fun k x => if k = bucket ∧ x = aclient then false else M k x

theorem apply_add (M : TreeList → Nat → Bool) (bucket k : TreeList) (aclient x : Nat) :
    (add bucket aclient).apply M k x = if k = bucket ∧ x = aclient then true else M k x := rfl

theorem apply_del (M : TreeList → Nat → Bool) (bucket k : TreeList) (aclient x : Nat) :
    (del bucket aclient).apply M k x = if k = bucket ∧ x = aclient then false else M k x := rfl

/-- A client that is added is in no bucket or in this one, and so is one that is deleted. -/
def Disciplined (M : TreeList → Nat → Bool) : LlistOp → Prop
  | add bucket aclient | del bucket aclient =>
      M bucket aclient = true ∨ ∀ k, M k aclient = false

/-- The client is the only one in the bucket. -/
def Sole (M : TreeList → Nat → Bool) (bucket : TreeList) (aclient : Nat) : Prop :=
  ∀ x, M bucket x = true ↔ x = aclient

/-- No client is added that is alone in its bucket. -/
def Allowed (M : TreeList → Nat → Bool) : LlistOp → Prop
  | add bucket aclient => ¬ Sole M bucket aclient
  | del _ _ => True

end LlistOp

/-- The buckets are lists, with both links, that share no client; who is in one is there
once and is who is to be there. Other clients have no links. -/
def BucketsHold (L : Links TreeList Nat) (M : TreeList → Nat → Bool) : Prop :=
  ∃ V, Linked L V ∧ L.Tidy V ∧ ∀ k x, x ∈ V k ↔ M k x = true

namespace BucketsHold

variable {L : Links TreeList Nat} {M : TreeList → Nat → Bool} {bucket : TreeList} {aclient : Nat}

theorem empty : BucketsHold Links.empty fun _ _ => false :=
  ⟨fun _ => [], Linked.empty, Linked.empty_tidy, fun _ _ => by simp⟩

/-- A client that is on a list with others has a link. -/
theorem add_again {V : TreeList → List Nat} (h : Linked L V) (hx : aclient ∈ V bucket)
    (hsole : V bucket ≠ [aclient]) : addClientToLlist bucket aclient L = L := by
  obtain ⟨as, bs, heq⟩ := List.append_of_mem hx
  have hd := h.dlist bucket
  rw [heq] at hd
  rw [addClientToLlist, if_neg]
  rintro ⟨hprev, hnext⟩
  rw [hd.prev_eq, List.getLast?_eq_none_iff] at hprev
  rw [hd.next_eq, List.head?_eq_none_iff] at hnext
  rw [heq, hprev, hnext] at hsole
  exact hsole rfl

theorem add (h : BucketsHold L M) (hop : (LlistOp.add bucket aclient).Disciplined M)
    (hsole : ¬ LlistOp.Sole M bucket aclient) :
    BucketsHold (addClientToLlist bucket aclient L) ((LlistOp.add bucket aclient).apply M) := by
  obtain ⟨V, hl, ht, hmem⟩ := h
  rcases hop with hin | hout
  · refine ⟨V, ?_⟩
    have hx : aclient ∈ V bucket := (hmem bucket aclient).mpr hin
    have hne : V bucket ≠ [aclient] := fun heq => hsole fun x => by
      rw [← hmem, heq, List.mem_singleton]
    rw [add_again hl hx hne]
    refine ⟨hl, ht, fun k x => (hmem k x).trans ?_⟩
    rw [LlistOp.apply_add]
    split
    · next heq =>
        rw [heq.1, heq.2]
        exact iff_of_true hin rfl
    · exact Iff.rfl
  · have hx : ∀ k, aclient ∉ V k := fun k hk => by
      rw [hmem, hout k] at hk
      exact Bool.false_ne_true hk
    refine ⟨update V bucket (aclient :: V bucket), ?_, ?_, fun k x => mem_update_cons.trans ?_⟩
    · rw [addClientToLlist_eq ht hx]
      exact hl.add hx bucket
    · rw [addClientToLlist_eq ht hx]
      exact hl.add_tidy ht bucket aclient
    · rw [LlistOp.apply_add, hmem]
      split
      · next heq => exact iff_of_true (.inl ⟨heq.2, heq.1⟩) rfl
      · next hne => exact or_iff_right fun h => hne ⟨h.2, h.1⟩

theorem del (h : BucketsHold L M) (hop : (LlistOp.del bucket aclient).Disciplined M) :
    BucketsHold (delClientFromLlist bucket aclient L) ((LlistOp.del bucket aclient).apply M) := by
  obtain ⟨V, hl, ht, hmem⟩ := h
  rcases hop with hin | hout
  · have hx : aclient ∈ V bucket := (hmem bucket aclient).mpr hin
    obtain ⟨hlinked, htidy⟩ := hl.remove ht hx
    rw [← delClientFromLlist_eq hl hx] at hlinked htidy
    refine ⟨_, hlinked, htidy, fun k x => (mem_update_erase hl.nodup).trans ?_⟩
    rw [LlistOp.apply_del, hmem]
    split
    · next heq => exact iff_of_false (fun h => h.2 ⟨heq.2, heq.1⟩) Bool.false_ne_true
    · next hne => exact and_iff_left fun h => hne ⟨h.2, h.1⟩
  · have hx : ∀ k, aclient ∉ V k := fun k hk => by
      rw [hmem, hout k] at hk
      exact Bool.false_ne_true hk
    obtain ⟨hlinked, htidy⟩ := delClientFromLlist_absent (l := bucket) hl ht hx
    refine ⟨V, hlinked, htidy, fun k x => (hmem k x).trans ?_⟩
    rw [LlistOp.apply_del]
    split
    · next heq =>
        rw [heq.1, heq.2, hout bucket]
    · exact Iff.rfl

/-- The only client of a list is linked to itself. -/
theorem add_sole (h : BucketsHold L M) (hsole : LlistOp.Sole M bucket aclient) :
    (addClientToLlist bucket aclient L).head bucket = some aclient ∧
      (addClientToLlist bucket aclient L).next aclient = some aclient ∧
      ¬ BucketsHold (addClientToLlist bucket aclient L)
        ((LlistOp.add bucket aclient).apply M) := by
  obtain ⟨V, hl, ht, hmem⟩ := h
  have hone : V bucket = [aclient] := by
    refine List.perm_singleton.mp ?_
    refine (List.perm_ext_iff_of_nodup (hl.nodup bucket) (List.nodup_singleton aclient)).mpr ?_
    exact fun x => by rw [hmem, hsole x, List.mem_singleton]
  have hd := hl.dlist bucket
  rw [hone] at hd
  have hhead : L.head bucket = some aclient := hd.1.1
  have hrun : addClientToLlist bucket aclient L = L.add bucket aclient :=
    if_pos ⟨@IsDlist.prev_eq _ _ _ _ _ [] _ _ hd, @IsDlist.next_eq _ _ _ _ _ [] _ _ hd⟩
  have hnext : (L.add bucket aclient).next aclient = some aclient := by
    simp only [Links.add, Function.update_self, hhead]
  have hfirst : (L.add bucket aclient).head bucket = some aclient := Function.update_self ..
  rw [hrun]
  refine ⟨hfirst, hnext, ?_⟩
  rintro ⟨V', hl', -, -⟩
  -- what is behind the client would be the whole list
  have hchain := (hl'.dlist bucket).1
  rw [hfirst] at hchain
  cases hv : V' bucket with
  | nil =>
      rw [hv] at hchain
      exact absurd hchain (Option.some_ne_none aclient)
  | cons x rest =>
      rw [hv] at hchain
      have hx : aclient = x := Option.some.inj hchain.1
      have hrest := hchain.2
      rw [← hx, hnext] at hrest
      exact List.cons_ne_self x rest (hchain.unique hrest)

/-- A step that the callers may take. -/
theorem step (h : BucketsHold L M) {op : LlistOp} (hop : op.Disciplined M) (hok : op.Allowed M) :
    BucketsHold (op.run L) (op.apply M) := by
  cases op with
  | add bucket aclient => exact h.add hop hok
  | del bucket aclient => exact h.del hop

end BucketsHold

/-- The calls one after another, and who is to be in the buckets after them. -/
def llistRun (ops : List LlistOp) (L : Links TreeList Nat) : Links TreeList Nat :=
  ops.foldl LlistOp.run L

def llistApply (ops : List LlistOp) (M : TreeList → Nat → Bool) : TreeList → Nat → Bool :=
  ops.foldl LlistOp.apply M

/-- A property of every step of a run, by what is in the buckets before it. -/
def EachStep (p : (TreeList → Nat → Bool) → LlistOp → Prop) :
    List LlistOp → (TreeList → Nat → Bool) → Prop
  | [], _ => True
  | op :: ops, M => p M op ∧ EachStep p ops (op.apply M)

/-- Of the steps that the callers may take, one by one. -/
theorem BucketsHold.run (ops : List LlistOp) {L : Links TreeList Nat}
    {M : TreeList → Nat → Bool} (h : BucketsHold L M)
    (hrules : EachStep (fun M op => op.Disciplined M) ops M)
    (hok : EachStep (fun M op => op.Allowed M) ops M) :
    BucketsHold (llistRun ops L) (llistApply ops M) := by
  induction ops generalizing L M with
  | nil => exact h
  | cons op ops ih => exact ih (h.step hrules.1 hok.1) hrules.2 hok.2

/-- In a run in which the callers keep to their rules and no client is added that is alone in
its bucket, the buckets hold after every step who has been added and not been deleted since.
If such a client is added next, its bucket has no end. -/
theorem llistRun_keeps (ops : List LlistOp) {L : Links TreeList Nat}
    {M : TreeList → Nat → Bool} (h : BucketsHold L M)
    (hrules : EachStep (fun M op => op.Disciplined M) ops M)
    (hok : EachStep (fun M op => op.Allowed M) ops M) :
    BucketsHold (llistRun ops L) (llistApply ops M) ∧
      ∀ bucket aclient, LlistOp.Sole (llistApply ops M) bucket aclient →
        ¬ BucketsHold (addClientToLlist bucket aclient (llistRun ops L))
          ((LlistOp.add bucket aclient).apply (llistApply ops M)) := by
  have hrun := h.run ops hrules hok
  exact ⟨hrun, fun bucket aclient hsole => (hrun.add_sole hsole).2.2⟩

theorem llistRun_keeps_two :
    BucketsHold
      (llistRun [.add (.users 0) 1, .add (.users 0) 2, .add (.users 0) 1, .del (.users 0) 2]
        Links.empty)
      (llistApply [.add (.users 0) 1, .add (.users 0) 2, .add (.users 0) 1, .del (.users 0) 2]
        fun _ _ => false) := by
  refine (llistRun_keeps
    [.add (.users 0) 1, .add (.users 0) 2, .add (.users 0) 1, .del (.users 0) 2]
    BucketsHold.empty ⟨.inr fun _ => rfl, .inr fun _ => ?_, .inl ?_, .inl ?_, trivial⟩
    ⟨fun h => ?_, fun h => ?_, fun h => ?_, trivial, trivial⟩).1
  · simp [LlistOp.apply]
  · simp [LlistOp.apply]
  · simp [LlistOp.apply]
  · exact Bool.false_ne_true ((h 1).mpr rfl)
  · exact absurd ((h 1).mp (by simp [LlistOp.apply])) (by decide)
  · exact absurd ((h 2).mp (by simp [LlistOp.apply])) (by decide)

/-- One client, added twice to a bucket without others. -/
theorem bucket_unending :
    EachStep (fun M op => op.Disciplined M) [.add (.users 0) 1, .add (.users 0) 1]
        (fun _ _ => false) ∧
      (llistRun [.add (.users 0) 1, .add (.users 0) 1] Links.empty).head (.users 0) = some 1 ∧
      (llistRun [.add (.users 0) 1, .add (.users 0) 1] Links.empty).next 1 = some 1 ∧
      ¬ BucketsHold (llistRun [.add (.users 0) 1, .add (.users 0) 1] Links.empty)
        (llistApply [.add (.users 0) 1, .add (.users 0) 1] fun _ _ => false) := by
  have hempty : ¬ LlistOp.Sole (fun _ _ => false) (.users 0) 1 := fun h =>
    Bool.false_ne_true ((h 1).mpr rfl)
  have hfirst := @BucketsHold.add _ _ (.users 0) 1 BucketsHold.empty (.inr fun _ => rfl)
    hempty
  have hsole : LlistOp.Sole ((LlistOp.add (.users 0) 1).apply fun _ _ => false) (.users 0) 1 :=
    fun x => by simp [LlistOp.apply]
  exact ⟨⟨.inr fun _ => rfl, .inl (by simp [LlistOp.apply]), trivial⟩, hfirst.add_sole hsole⟩

end TrIrcd
