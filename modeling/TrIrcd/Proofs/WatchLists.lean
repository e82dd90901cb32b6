import TrIrcd.Lib.Keyed
import TrIrcd.Lib.Run
import TrIrcd.Proofs.Dlinks
import TrIrcd.Src.Watch

/-!
# Watch lists are symmetric

The table is described by the chains `V` of its buckets and the lists by
their contents `C`. `Wired` is what ties the two together: an entry is in the
bucket of its nick, no two entries of a bucket have the same nick, and a
client is on the list of an entry exactly when the entry is on the list of
the client. Both removals come down to the same two deletions and a
`dropEntry`; they differ in how they find the entry's predecessor and in the
order of the last two steps, which does not matter since `dropEntry` only
looks at the entry's own list.

Nicks whose hash value is a multiple of the table size are the exception to
the last part of the specification. Index 0 is a bucket like any other, but
`add_to_watch_hash_table` takes it for an error and does nothing.
-/

namespace TrIrcd

open Function (update)
open TrIrcd.Lib

/-- The calls of a run. -/
inductive WatchOp
  | add (timeofday : Int) (nick : List UInt8) (cptr : Nat)
  | del (nick : List UInt8) (cptr : Nat)
  | delList (cptr : Nat)

namespace WatchSt

def step (M A : Allocator) (s : WatchSt) : WatchOp → Except WatchFault WatchSt
  | .add timeofday nick cptr => s.addToWatchHashTable M A timeofday nick cptr
  | .del nick cptr => .ok (s.delFromWatchHashTable nick cptr)
  | .delList cptr => .ok (s.hashDelWatchList cptr)

def InTable (s : WatchSt) (awptr : Nat) : Prop := ∃ i, awptr ∈ s.watchTable.nodes i

/-- Who watches an entry. -/
def watchedBy (s : WatchSt) (awptr : Nat) : List Nat := dlinkData (.watchedBy awptr) s.dlinks

/-- The entries a client watches. -/
def watchlist (s : WatchSt) (cptr : Nat) : List Nat := dlinkData (.watchlist cptr) s.dlinks

/-- The two sides of every watch agree, and the table holds one entry for
every nick that is watched. -/
structure Symmetric (s : WatchSt) : Prop where
  mem_iff : ∀ {x c}, s.InTable x → (c ∈ s.watchedBy x ↔ x ∈ s.watchlist c)
  inTable : ∀ {x c}, x ∈ s.watchlist c → s.InTable x
  nodup_watchedBy : ∀ x, (s.watchedBy x).Nodup
  nodup_watchlist : ∀ c, (s.watchlist c).Nodup
  watches : ∀ c, s.watches c = (s.watchlist c).length
  watched : ∀ {x}, s.InTable x → s.watchedBy x ≠ []
  nick_inj : ∀ {x y}, s.InTable x → s.InTable y →
    ircStrcmp (s.watchnick x) (s.watchnick y) = 0 → x = y

/-! ## The lists -/

/-- `x` and `c` get on each other's list. -/
def linkLists (x c : Nat) (C : WatchList → List Nat) : WatchList → List Nat :=
  let C := update C (.watchedBy x) (c :: C (.watchedBy x))
  update C (.watchlist c) (x :: C (.watchlist c))

/-- `x` and `c` leave each other's list. -/
def unlinkLists (x c : Nat) (C : WatchList → List Nat) : WatchList → List Nat :=
  let C := update C (.watchedBy x) ((C (.watchedBy x)).erase c)
  update C (.watchlist c) ((C (.watchlist c)).erase x)

section Lists

variable {nick : Nat → List UInt8} {V : Nat → List Nat} {C : WatchList → List Nat}
  {x y c d : Nat}

theorem mem_linkLists_watchedBy :
    d ∈ linkLists x c C (.watchedBy y) ↔ (d = c ∧ y = x) ∨ d ∈ C (.watchedBy y) := by
  simp only [linkLists, mem_update_cons, reduceCtorEq, and_false, false_or,
    WatchList.watchedBy.injEq]

theorem mem_linkLists_watchlist :
    y ∈ linkLists x c C (.watchlist d) ↔ (y = x ∧ d = c) ∨ y ∈ C (.watchlist d) := by
  simp only [linkLists, mem_update_cons, reduceCtorEq, and_false, false_or,
    WatchList.watchlist.injEq]

theorem mem_unlinkLists_watchedBy (h : ∀ l, (C l).Nodup) :
    d ∈ unlinkLists x c C (.watchedBy y) ↔ d ∈ C (.watchedBy y) ∧ ¬ (d = c ∧ y = x) := by
  simp only [unlinkLists, mem_update_erase (nodup_update_erase h), mem_update_erase h,
    reduceCtorEq, and_false, not_false_eq_true, and_true, WatchList.watchedBy.injEq]

theorem mem_unlinkLists_watchlist (h : ∀ l, (C l).Nodup) :
    y ∈ unlinkLists x c C (.watchlist d) ↔ y ∈ C (.watchlist d) ∧ ¬ (y = x ∧ d = c) := by
  simp only [unlinkLists, mem_update_erase (nodup_update_erase h), mem_update_erase h,
    reduceCtorEq, and_false, not_false_eq_true, and_true, WatchList.watchlist.injEq]

theorem linkLists_watchlist :
    linkLists x c C (.watchlist d) =
      if d = c then x :: C (.watchlist c) else C (.watchlist d) := by
  by_cases hd : d = c
  · subst hd
    simp [linkLists]
  · simp [linkLists, hd]

theorem unlinkLists_watchlist :
    unlinkLists x c C (.watchlist d) =
      if d = c then (C (.watchlist c)).erase x else C (.watchlist d) := by
  by_cases hd : d = c
  · subst hd
    simp [unlinkLists]
  · simp [unlinkLists, hd]

/-- What the chains and the lists have to do with each other. -/
structure Wired (nick : Nat → List UInt8) (V : Nat → List Nat)
    (C : WatchList → List Nat) : Prop where
  bucket : ∀ {i x}, x ∈ V i → hashNickName (nick x) % watchHashSize = i
  distinct : ∀ i, Keyed (fun x => foldName (nick x)) (V i)
  symm : ∀ {x c}, x ∈ C (.watchlist c) ↔ c ∈ C (.watchedBy x)
  tabled : ∀ {x c}, c ∈ C (.watchedBy x) → ∃ i, x ∈ V i
  nodup : ∀ l, (C l).Nodup

/-- Every entry but possibly `x` is watched by somebody. -/
def WatchedBut (x : Option Nat) (V : Nat → List Nat) (C : WatchList → List Nat) : Prop :=
  ∀ i, ∀ y ∈ V i, x ≠ some y → C (.watchedBy y) ≠ []

theorem Wired.link (h : Wired nick V C) {i : Nat} (hx : x ∈ V i)
    (hc : c ∉ C (.watchedBy x)) : Wired nick V (linkLists x c C) where
  bucket := h.bucket
  distinct := h.distinct
  symm := by
    intro y d
    rw [mem_linkLists_watchedBy, mem_linkLists_watchlist, h.symm, and_comm]
  tabled := by
    intro y d hd
    rcases mem_linkLists_watchedBy.mp hd with ⟨-, rfl⟩ | hd
    · exact ⟨i, hx⟩
    · exact h.tabled hd
  nodup := by
    refine nodup_update_cons (nodup_update_cons h.nodup hc) ?_
    rw [Function.update_of_ne WatchList.noConfusion, h.symm]
    exact hc

theorem Wired.unlink (h : Wired nick V C) (x c : Nat) : Wired nick V (unlinkLists x c C) where
  bucket := h.bucket
  distinct := h.distinct
  symm := by
    intro y d
    rw [mem_unlinkLists_watchedBy h.nodup, mem_unlinkLists_watchlist h.nodup, h.symm,
      and_comm (a := y = x)]
  tabled := fun hd => h.tabled ((mem_unlinkLists_watchedBy h.nodup).mp hd).1
  nodup := nodup_update_erase (nodup_update_erase h.nodup)

theorem WatchedBut.link (h : WatchedBut (some x) V C) :
    WatchedBut none V (linkLists x c C) := by
  intro i y hy _
  by_cases hyx : y = x
  · exact List.ne_nil_of_mem (mem_linkLists_watchedBy.mpr (Or.inl ⟨rfl, hyx⟩))
  · obtain ⟨d, hd⟩ := List.exists_mem_of_ne_nil _
      (h i y hy fun e => hyx (Option.some.inj e).symm)
    exact List.ne_nil_of_mem (mem_linkLists_watchedBy.mpr (Or.inr hd))

theorem WatchedBut.unlink (hn : ∀ l, (C l).Nodup) (h : WatchedBut none V C) :
    WatchedBut (some x) V (unlinkLists x c C) := by
  intro i y hy hyx
  obtain ⟨d, hd⟩ := List.exists_mem_of_ne_nil _ (h i y hy (Option.some_ne_none y).symm)
  exact List.ne_nil_of_mem ((mem_unlinkLists_watchedBy hn).mpr
    ⟨hd, fun e => hyx (by rw [e.2])⟩)

end Lists

/-! ## The functions -/

/-- The chains of `s` are `V` and its lists `C`. -/
structure Shaped (V : Nat → List Nat) (C : WatchList → List Nat) (s : WatchSt) : Prop where
  chains : Chains s.watchTable V
  contents : Contents s.dlinks C
  entries : ∀ {i x}, x ∈ V i → x ∈ s.entries
  wired : Wired s.watchnick V C

/-- The invariant of a run. -/
def Holds (s : WatchSt) : Prop :=
  ∃ V C, Shaped V C s ∧ WatchedBut none V C ∧ ∀ c, s.watches c = (C (.watchlist c)).length

theorem seek_eq (s : WatchSt) (i : Nat) (nick : List UInt8) :
    s.seek i nick = s.watchTable.seek i fun x => foldName (s.watchnick x) = foldName nick := by
  have hp : (fun x => decide (ircStrcmp (s.watchnick x) nick = 0)) =
      fun x => decide (foldName (s.watchnick x) = foldName nick) :=
    funext fun x => decide_eq_decide.mpr (ircStrcmp_eq_zero_iff.trans eq_comm)
  rw [WatchSt.seek, hp]

theorem cleared_holds : Holds cleared := by
  refine ⟨fun _ => [], fun _ => [], ⟨Chains.empty, Contents.empty 0, ?_, ?_⟩, ?_, fun _ => rfl⟩
  · intro i x hx
    cases hx
  · refine ⟨?_, fun _ => Keyed.nil, fun {_ _} => by simp only [List.not_mem_nil],
      ?_, fun _ => List.nodup_nil⟩
    · intro i x hx
      cases hx
    · intro x c hc
      cases hc
  · intro i y hy
    cases hy

section Shaped

variable {s s' : WatchSt} {V : Nat → List Nat} {C : WatchList → List Nat} {x c i : Nat}
  {nick : List UInt8}

namespace Shaped

/-- The entry of a nick is the one the search finds. -/
theorem hashGetWatch (h : Shaped V C s) (hx : x ∈ V i)
    (hk : foldName (s.watchnick x) = foldName nick)
    (hn : hashNickName nick % watchHashSize ≠ 0) : s.hashGetWatch nick = some x := by
  have hi := h.wired.bucket hx
  rw [hashNickName_congr hk] at hi
  subst hi
  have hd := h.wired.distinct (hashNickName nick % watchHashSize)
  rw [WatchSt.hashGetWatch, if_neg (by omega), seek_eq, h.chains.seek, ← hk]
  exact hd.find? hx

theorem newEntry (h : Shaped V C s) (M : Allocator) (timeofday : Int)
    (hl : (cstr nick).length ≤ nickLen) (hi : hashNickName nick % watchHashSize = i)
    (hf : ∀ y ∈ V i, foldName (s.watchnick y) ≠ foldName nick) :
    Shaped (update V i (M.pick s.entries :: V i)) C (s.newEntry M timeofday i nick).2 ∧
      C (.watchedBy (M.pick s.entries)) = [] := by
  have hnew : ∀ j, M.pick s.entries ∉ V j := fun j hx => M.pick_fresh _ (h.entries hx)
  have hne : ∀ {j y}, y ∈ V j → y ≠ M.pick s.entries :=
    fun hy e => hnew _ (by rw [← e]; exact hy)
  have hnil : C (.watchedBy (M.pick s.entries)) = [] := by
    refine List.eq_nil_iff_forall_not_mem.mpr fun d hd => ?_
    obtain ⟨j, hj⟩ := h.wired.tabled hd
    exact hnew j hj
  have hnick : (s.newEntry M timeofday i nick).2.watchnick =
      update s.watchnick (M.pick s.entries) (cstr nick) := by
    simp only [WatchSt.newEntry, List.take_of_length_le hl]
  refine ⟨⟨h.chains.push hnew i, ?_, ?_, ?_⟩, hnil⟩
  · have hcl := h.contents.clear (.watchedBy (M.pick s.entries))
    rw [← hnil, Function.update_eq_self] at hcl
    exact hcl
  · intro j y hy
    rcases mem_update_cons.mp hy with ⟨rfl, -⟩ | hy
    · exact List.mem_cons_self ..
    · exact List.mem_cons_of_mem _ (h.entries hy)
  · rw [hnick]
    refine ⟨fun {j y} hy => ?_, fun j => ?_, h.wired.symm, fun {y d} hd => ?_, h.wired.nodup⟩
    · rcases mem_update_cons.mp hy with ⟨rfl, rfl⟩ | hy
      · rw [Function.update_self, hashNickName_congr (foldName_cstr nick), hi]
      · rw [Function.update_of_ne (hne hy)]
        exact h.wired.bucket hy
    · have hd : Keyed (fun x => foldName
          (update s.watchnick (M.pick s.entries) (cstr nick) x)) (V j) :=
        (h.wired.distinct j).congr fun y hy => by rw [Function.update_of_ne (hne hy)]
      by_cases hj : j = i
      · subst hj
        rw [Function.update_self]
        refine hd.cons fun y hy => ?_
        rw [Function.update_of_ne (hne hy), Function.update_self, foldName_cstr]
        exact hf y hy
      · rw [Function.update_of_ne hj]
        exact hd
    · obtain ⟨j, hj⟩ := h.wired.tabled hd
      exact ⟨j, mem_update_cons.mpr (Or.inr hj)⟩

theorem link (h : Shaped V C s) (A : Allocator) (hx : x ∈ V i) (hc : c ∉ C (.watchedBy x))
    (hs : s.link A x c = .ok s') :
    Shaped V (linkLists x c C) s' ∧ s'.watches = update s.watches c (s.watches c + 1) ∧
      s'.watchnick = s.watchnick := by
  simp only [WatchSt.link] at hs
  split at hs
  · cases hs
    exact ⟨⟨h.chains, (h.contents.addNew A c _).addNew A x _, h.entries,
      h.wired.link hx hc⟩, rfl, rfl⟩
  · cases hs

/-- An entry leaves the table when its list is empty. -/
theorem dropEntry (h : Shaped V C s) {as bs : List Nat} (hv : V i = as ++ x :: bs)
    (hw : WatchedBut (some x) V C) :
    ∃ V', Shaped V' C (s.dropEntry i as.getLast? x) ∧ WatchedBut none V' C := by
  cases hh : s.dlinks.head (.watchedBy x) with
  | some lp =>
      simp only [WatchSt.dropEntry, hh]
      refine ⟨V, h, fun j y hy _ => ?_⟩
      by_cases hyx : y = x
      · subst hyx
        intro hnil
        rw [h.contents.head_eq_none.mpr hnil] at hh
        cases hh
      · exact hw j y hy fun e => hyx (Option.some.inj e).symm
  | none =>
      have hnil := h.contents.head_eq_none.mp hh
      simp only [WatchSt.dropEntry, hh]
      have hd := h.wired.distinct i
      rw [hv] at hd
      have he : as ++ bs = (V i).erase x := by
        have hxa : x ∉ as := fun hxa => by
          have hnd := h.chains.nodup i
          rw [hv] at hnd
          exact (List.nodup_append.mp hnd).2.2 x hxa x (List.mem_cons_self ..) rfl
        rw [hv, List.erase_append_right _ hxa, List.erase_cons_head]
      have hmem : ∀ {j y}, y ∈ update V i (as ++ bs) j ↔ y ∈ V j ∧ y ≠ x := by
        intro j y
        rw [he, mem_update_erase h.chains.nodup]
        refine and_congr_right fun hy => not_congr (and_iff_left_of_imp ?_)
        rintro rfl
        exact h.chains.apart hy (by rw [hv]; simp)
      refine ⟨_, ⟨h.chains.unlinkAfter hv, h.contents, fun hy => ?_, ?_⟩, fun j y hy _ => ?_⟩
      · exact (List.mem_erase_of_ne (hmem.mp hy).2).mpr (h.entries (hmem.mp hy).1)
      · refine ⟨fun hy => h.wired.bucket (hmem.mp hy).1, fun j => ?_, h.wired.symm,
          fun {y d} hy => ?_, h.wired.nodup⟩
        · by_cases hj : j = i
          · subst hj
            rw [Function.update_self]
            exact hd.remove
          · rw [Function.update_of_ne hj]
            exact h.wired.distinct j
        · obtain ⟨j, hj⟩ := h.wired.tabled hy
          refine ⟨j, hmem.mpr ⟨hj, ?_⟩⟩
          rintro rfl
          rw [hnil] at hy
          cases hy
      · exact hw j y (hmem.mp hy).1 fun e => (hmem.mp hy).2 (Option.some.inj e).symm

end Shaped

/-- `dropEntry` reads no list but the entry's own. -/
theorem dropEntry_dlinks (n : Option Nat) {D : Dlinks WatchList Nat}
    (hD : D.head (.watchedBy x) = s.dlinks.head (.watchedBy x)) :
    { s.dropEntry i n x with dlinks := D } = dropEntry i n x { s with dlinks := D } := by
  simp only [dropEntry, hD]
  cases s.dlinks.head (.watchedBy x) <;> rfl

theorem dropEntry_kept (n : Option Nat) :
    (s.dropEntry i n x).dlinks = s.dlinks ∧ (s.dropEntry i n x).watches = s.watches := by
  simp only [dropEntry]
  split <;> exact ⟨rfl, rfl⟩

end Shaped

section Calls

variable {s s' : WatchSt} {V : Nat → List Nat} {C : WatchList → List Nat} {x c i : Nat}
  {nick : List UInt8}

/-- A successful add: the client watches the entry that the nick has now. -/
theorem Holds.add (h : Holds s) {M A : Allocator} {timeofday : Int}
    (hs : s.addToWatchHashTable M A timeofday nick c = .ok s') :
    Holds s' ∧ ((cstr nick).length ≤ nickLen → hashNickName nick % watchHashSize ≠ 0 →
      ∃ x, s'.hashGetWatch nick = some x ∧ c ∈ s'.watchedBy x) := by
  obtain ⟨V, C, h, hw, hcount⟩ := h
  simp only [WatchSt.addToWatchHashTable] at hs
  split at hs
  · next hl =>
      cases hs
      exact ⟨⟨V, C, h, hw, hcount⟩, fun hle => absurd hl (by omega)⟩
  · next hl =>
      split at hs
      · next hz =>
          cases hs
          exact ⟨⟨V, C, h, hw, hcount⟩, fun _ hn => absurd hz (by omega)⟩
      · next hz =>
          -- Both remaining ways to link an entry end the same way.
          have key : ∀ {W t y j}, Shaped W C t → y ∈ W j → c ∉ C (.watchedBy y) →
              WatchedBut (some y) W C → t.watches = s.watches →
              foldName (t.watchnick y) = foldName nick → t.link A y c = .ok s' →
              Holds s' ∧ ((cstr nick).length ≤ nickLen →
                hashNickName nick % watchHashSize ≠ 0 →
                ∃ x, s'.hashGetWatch nick = some x ∧ c ∈ s'.watchedBy x) := by
            intro W t y j ht hy hc hW hcnt hk hlink
            obtain ⟨hs', hwatches, hnick⟩ := ht.link A hy hc hlink
            refine ⟨⟨W, _, hs', hW.link, fun d => ?_⟩, fun _ hn => ⟨y, ?_, ?_⟩⟩
            · rw [hwatches, hcnt, linkLists_watchlist]
              by_cases hd : d = c
              · subst hd
                rw [Function.update_self, if_pos rfl, List.length_cons, hcount]
                rfl
              · rw [Function.update_of_ne hd, if_neg hd, hcount]
            · exact hs'.hashGetWatch hy (by rw [hnick, hk]) hn
            · rw [WatchSt.watchedBy, hs'.contents.data]
              exact mem_linkLists_watchedBy.mpr (Or.inl ⟨rfl, rfl⟩)
          simp only [seek_eq, h.chains.seek] at hs
          split at hs
          · next hf =>
              have hne := find?_key_eq_none.mp hf
              obtain ⟨hnew, hnil⟩ := h.newEntry M timeofday (by omega) rfl hne
              refine key hnew (mem_update_cons.mpr (Or.inl ⟨rfl, rfl⟩)) ?_ ?_ rfl ?_ hs
              · rw [hnil]
                exact List.not_mem_nil
              · intro j y hy hyx
                rcases mem_update_cons.mp hy with ⟨rfl, -⟩ | hy
                · exact absurd rfl hyx
                · exact hw j y hy (Option.some_ne_none y).symm
              · simp only [WatchSt.newEntry, Function.update_self,
                  List.take_of_length_le (Nat.le_of_not_lt hl), foldName_cstr]
          · next y hf =>
              obtain ⟨hy, hk⟩ := find?_key_some hf
              split at hs
              · next lp hlp =>
                  cases hs
                  refine ⟨⟨V, C, h, hw, hcount⟩, fun _ hn => ⟨y, h.hashGetWatch hy hk hn, ?_⟩⟩
                  rw [WatchSt.watchedBy, h.contents.data]
                  by_contra hc
                  rw [h.contents.find_eq_none.mpr hc] at hlp
                  cases hlp
              · next hlp =>
                  exact key h hy (h.contents.find_eq_none.mp hlp) (fun j z hz _ =>
                    hw j z hz (Option.some_ne_none z).symm) rfl hk hs

/-- The deletions both removals make, and the `dropEntry` that follows. -/
theorem Shaped.unlink (h : Shaped V C s) (hw : WatchedBut none V C) {as bs : List Nat}
    (hv : V i = as ++ x :: bs) {D : Dlinks WatchList Nat}
    (hD : Contents D (unlinkLists x c C)) :
    ∃ V', Shaped V' (unlinkLists x c C) (WatchSt.dropEntry i as.getLast? x { s with dlinks := D }) ∧
      WatchedBut none V' (unlinkLists x c C) :=
  Shaped.dropEntry (s := { s with dlinks := D }) ⟨h.chains, hD, h.entries, h.wired.unlink x c⟩ hv
    (hw.unlink h.wired.nodup)

theorem Holds.del (h : Holds s) (nick : List UInt8) (c : Nat) :
    Holds (s.delFromWatchHashTable nick c) := by
  obtain ⟨V, C, h, hw, hcount⟩ := h
  simp only [WatchSt.delFromWatchHashTable, seek_eq]
  split
  · exact ⟨V, C, h, hw, hcount⟩
  · split
    · exact ⟨V, C, h, hw, hcount⟩
    · next nlast x hseek =>
        have hf := congrArg Prod.snd hseek
        rw [h.chains.seek] at hf
        obtain ⟨as, bs, hv, hs⟩ := h.chains.seek_some hf
        rw [hs] at hseek
        cases hseek
        split
        · exact ⟨V, C, h, hw, hcount⟩
        · next lp hlp =>
            have hc : c ∈ C (.watchedBy x) := by
              by_contra hc
              rw [h.contents.find_eq_none.mpr hc] at hlp
              cases hlp
            have hfirst : dlinkDeleteNode lp (.watchedBy x) s.dlinks =
                dlinkDeleteFirst (.watchedBy x) (· = c) s.dlinks := by
              rw [dlinkDeleteFirst, hlp]
            have hD := (h.contents.deleteFirst (.watchedBy x) (· = c)).deleteFirst
              (.watchlist c) (· = x)
            rw [eraseP_eq_erase, eraseP_eq_erase, ← hfirst] at hD
            obtain ⟨V', h', hw'⟩ := h.unlink hw hv hD
            refine ⟨V', _, ⟨h'.chains, h'.contents, h'.entries, h'.wired⟩, hw', fun d => ?_⟩
            rw [unlinkLists_watchlist]
            show update _ c _ d = _
            rw [(dropEntry_kept _).2]
            by_cases hd : d = c
            · subst hd
              have hmem := h.wired.symm.mpr hc
              rw [Function.update_self, if_pos rfl, List.length_erase_of_mem hmem, hcount]
              have := List.length_pos_of_mem hmem
              omega
            · rw [Function.update_of_ne hd, if_neg hd, hcount]

/-- A listed entry stands in its bucket behind the node the search ends at. -/
theorem Shaped.seek_entry (h : Shaped V C s) (hx : x ∈ V i) :
    ∃ as bs, V i = as ++ x :: bs ∧ s.watchTable.seek i (· = x) = (as.getLast?, some x) := by
  cases hf : (V i).find? (· = x) with
  | none => exact absurd (decide_eq_true rfl) (List.find?_eq_none.mp hf x hx)
  | some y =>
      have hyx : y = x := by simpa using List.find?_some hf
      subst hyx
      exact h.chains.seek_some hf

/-- The loop of `hash_del_watch_list` takes the list apart from its head on,
and the table is in order after every turn. -/
theorem Shaped.delLoop (fuel : Nat) : ∀ {s V C ptr}, Shaped V C s → WatchedBut none V C →
    s.dlinks.head (.watchlist c) = ptr → (C (.watchlist c)).length ≤ fuel →
    ∃ V' C', Shaped V' C' (hashDelWatchLoop c fuel ptr s) ∧ WatchedBut none V' C' ∧
      (∀ d, C' (.watchlist d) = if d = c then [] else C (.watchlist d)) ∧
      (hashDelWatchLoop c fuel ptr s).watches = s.watches := by
  have hdone : ∀ {C : WatchList → List Nat}, C (.watchlist c) = [] →
      ∀ d, C (.watchlist d) = if d = c then [] else C (.watchlist d) := by
    intro C hnil d
    by_cases hd : d = c
    · rw [if_pos hd, hd, hnil]
    · rw [if_neg hd]
  induction fuel with
  | zero =>
      intro s V C ptr h hw _ hl
      exact ⟨V, C, h, hw, hdone (List.length_eq_zero_iff.mp (by omega)), rfl⟩
  | succ fuel ih =>
      intro s V C ptr h hw hh hl
      cases ptr with
      | none => exact ⟨V, C, h, hw, hdone (h.contents.head_eq_none.mp hh), rfl⟩
      | some ptr =>
          obtain ⟨xs, hxs, -, -⟩ := h.contents.deleteHead hh
          generalize hx : s.dlinks.data ptr = x at hxs
          have hne : WatchList.watchlist c ≠ .watchedBy x := WatchList.noConfusion
          obtain ⟨hh₁, hnext, hdata⟩ := h.contents.deleteFirst_off hne (· = c) hh
          have h₁ := h.contents.deleteFirst (.watchedBy x) (· = c)
          obtain ⟨ys, hys, h₂, hh₂⟩ := h₁.deleteHead hh₁
          rw [Function.update_of_ne hne, hdata, hx, hxs] at hys
          cases (List.cons.inj hys).2
          -- The two deletions are those of `unlinkLists`.
          have hD : Contents (dlinkDeleteNode ptr (.watchlist c)
              (dlinkDeleteFirst (.watchedBy x) (· = c) s.dlinks)) (unlinkLists x c C) := by
            simp only [unlinkLists, Function.update_of_ne hne, hxs, List.erase_cons_head]
            rw [eraseP_eq_erase] at h₂
            exact h₂
          have hc : c ∈ C (.watchedBy x) :=
            h.wired.symm.mp (by rw [hxs]; exact List.mem_cons_self ..)
          obtain ⟨i, hi⟩ := h.wired.tabled hc
          obtain ⟨as, bs, hv, hseek⟩ := h.seek_entry hi
          obtain ⟨V', h', hw'⟩ := h.unlink hw hv hD
          simp only [hashDelWatchLoop, hx, h.wired.bucket hi, hseek, (dropEntry_kept _).1]
          rw [dropEntry_dlinks as.getLast? (by
            show (dlinkDelete ptr (WatchList.watchlist c) _).head (WatchList.watchedBy x) = _
            rw [dlinkDelete_head, if_neg hne.symm])]
          have hlist : ∀ d, unlinkLists x c C (.watchlist d) =
              if d = c then xs else C (.watchlist d) := by
            intro d
            rw [unlinkLists_watchlist, hxs, List.erase_cons_head]
          have hhead : (WatchSt.dropEntry i as.getLast? x { s with
              dlinks := dlinkDeleteNode ptr (.watchlist c)
                (dlinkDeleteFirst (.watchedBy x) (· = c) s.dlinks) }).dlinks.head
                (.watchlist c) = s.dlinks.next ptr := by
            rw [(dropEntry_kept _).1]
            exact hh₂.trans hnext
          rw [hxs, List.length_cons] at hl
          obtain ⟨V'', C'', h'', hw'', hC'', hwatches⟩ := ih h' hw' hhead
            (by rw [hlist, if_pos rfl]; omega)
          refine ⟨V'', C'', h'', hw'', fun d => ?_, ?_⟩
          · rw [hC'', hlist]
            by_cases hd : d = c
            · rw [if_pos hd, if_pos hd]
            · rw [if_neg hd, if_neg hd, if_neg hd]
          · rw [hwatches, (dropEntry_kept _).2]

theorem Holds.delList (h : Holds s) (c : Nat) : Holds (s.hashDelWatchList c) := by
  obtain ⟨V, C, h, hw, hcount⟩ := h
  rw [WatchSt.hashDelWatchList]
  cases hh : s.dlinks.head (.watchlist c) with
  | none => exact ⟨V, C, h, hw, hcount⟩
  | some ptr =>
      obtain ⟨V', C', h', hw', hC', hwatches⟩ :=
        Shaped.delLoop s.dlinks.used.length h hw hh (h.contents.length_le _)
      refine ⟨V', C', ⟨h'.chains, h'.contents, h'.entries, h'.wired⟩, hw', fun d => ?_⟩
      show update _ c 0 d = _
      rw [hC', hwatches]
      by_cases hd : d = c
      · subst hd
        rw [Function.update_self, if_pos rfl]
        rfl
      · rw [Function.update_of_ne hd, if_neg hd, hcount]

/-! ## Runs -/

theorem step_holds {M A : Allocator} (s : WatchSt) (op : WatchOp) (s' : WatchSt) (h : Holds s)
    (hs : step M A s op = .ok s') : Holds s' := by
  cases op with
  | add timeofday nick cptr => exact (h.add hs).1
  | del nick cptr =>
      cases hs
      exact h.del nick cptr
  | delList cptr =>
      cases hs
      exact h.delList cptr

theorem Holds.symmetric (h : Holds s) : s.Symmetric := by
  obtain ⟨V, C, h, hw, hcount⟩ := h
  have htab : ∀ {x}, s.InTable x ↔ ∃ i, x ∈ V i := by
    intro x
    simp only [WatchSt.InTable, h.chains.nodes]
  have hby : ∀ x, s.watchedBy x = C (.watchedBy x) := fun x => h.contents.data _
  have hlist : ∀ c, s.watchlist c = C (.watchlist c) := fun c => h.contents.data _
  refine ⟨fun _ => ?_, fun hx => ?_, fun x => ?_, fun c => ?_, fun c => ?_, fun hx => ?_,
    fun hx hy hn => ?_⟩
  · rw [hby, hlist]
    exact h.wired.symm.symm
  · rw [hlist] at hx
    exact htab.mpr (h.wired.tabled (h.wired.symm.mp hx))
  · rw [hby]
    exact h.wired.nodup _
  · rw [hlist]
    exact h.wired.nodup _
  · rw [hlist]
    exact hcount c
  · obtain ⟨i, hi⟩ := htab.mp hx
    rw [hby]
    exact hw i _ hi (Option.some_ne_none _).symm
  · -- Equal nicks have one bucket, and a bucket has them once.
    obtain ⟨i, hi⟩ := htab.mp hx
    obtain ⟨j, hj⟩ := htab.mp hy
    have hk := ircStrcmp_eq_zero_iff.mp hn
    have hij : j = i := by
      rw [← h.wired.bucket hi, ← h.wired.bucket hj, hashNickName_congr hk]
    subst hij
    exact (h.wired.distinct j).eq_of_mem hi hj hk.symm

end Calls

/-- After any run the two sides agree, and a nick that is added then is
found, watched by the client, exactly when its hash value is not a multiple of
the table size. -/
theorem watchRun_symmetric (M A : Allocator) (ops : List WatchOp) {s : WatchSt}
    (hr : run (step M A) cleared ops = .ok s) :
    s.Symmetric ∧ ∀ (timeofday : Int) (n : List UInt8) (c : Nat) (s' : WatchSt),
      (cstr n).length ≤ nickLen → s.addToWatchHashTable M A timeofday n c = .ok s' →
      ((∃ x, s'.hashGetWatch n = some x ∧ c ∈ s'.watchedBy x) ↔
        hashNickName n % watchHashSize ≠ 0) := by
  have h : Holds s := run_invariant step_holds ops cleared_holds hr
  refine ⟨h.symmetric, fun timeofday n c s' hl hs => ⟨?_, (h.add hs).2 hl⟩⟩
  rintro ⟨x, hx, -⟩ hz
  rw [WatchSt.hashGetWatch, if_pos (by omega)] at hx
  cases hx

/-- Two clients watch a nick and one of them leaves. -/
theorem watchRun_symmetric_pair :
    ∃ s, run (step Allocator.bump Allocator.bump) cleared
        [.add 0 [0x61] 1, .add 0 [0x61] 2, .delList 1] = .ok s ∧
      s.watchlist 1 = [] ∧ s.watchlist 2 = [1] ∧ s.Symmetric :=
  ⟨_, rfl, by decide, by decide, (watchRun_symmetric Allocator.bump Allocator.bump
    [.add 0 [0x61] 1, .add 0 [0x61] 2, .delList 1] rfl).1⟩

/-- The nick `ivq`. -/
def ivq : List UInt8 := [0x69, 0x76, 0x71]

/-- Nobody can watch `ivq`. -/
theorem ivq_unwatched :
    ∃ s', cleared.addToWatchHashTable Allocator.bump Allocator.bump 0 ivq 1 = .ok s' ∧
      cstr ivq ≠ [] ∧ (cstr ivq).length ≤ nickLen ∧
      ¬ ∃ x, s'.hashGetWatch ivq = some x ∧ 1 ∈ s'.watchedBy x := by
  have hz : hashNickName ivq % watchHashSize = 0 := by decide
  refine ⟨cleared, ?_, by decide, by decide, ?_⟩
  · rfl
  · rintro ⟨x, hx, -⟩
    rw [WatchSt.hashGetWatch, if_pos (by omega)] at hx
    cases hx

end WatchSt

end TrIrcd
