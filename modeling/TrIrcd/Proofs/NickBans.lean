import TrIrcd.Proofs.BanLookup
import TrIrcd.Proofs.MaskRedundancy

/-!
# Bans and a new nick

`nick_is_nuhed` compares the texts with the new nick with the masks of type
`MTYP_FULL` only. A mask that begins with `*!` says nothing about the nick: its
star takes the nick, old or new, and the rest is compared with what stands
behind a `!` (`starBang_nick`). A mask that begins with `#` is about channels. So
what these masks do not match now they do not match after the change.

But `is_nuhed` has not compared them with the address: where its third text is
made, the second is lost. A ban on the address may match a client for which
`is_nuhed` answers null, and such a ban is what `nick_is_nuhed` leaves out.
-/

namespace TrIrcd

open TrIrcd.Lib

/-! ## `match` without its cap -/

theorem matchFree_iff {mask name : List UInt8} (hmask : 0 ∉ mask) (hname : 0 ∉ name)
    (hslash : 0x5c ∉ mask) : matchFree mask name = 0 ↔ InMask mask name := by
  rw [← matches_readToks hslash]
  have hspec := matchLoop_spec hmask hname (steady_of_notMem hslash name)
    ((mask.length + 2) * (name.length + 2)) (start_turning (unpaired_of_notMem hslash))
  refine ⟨hspec.1, hspec.2 ?_⟩
  show (name.length + 1 - 0) * (mask.length + 2) + (mask.length + 1 - 0) <
    (mask.length + 2) * (name.length + 2)
  have hmul : (mask.length + 2) * (name.length + 2) =
      (name.length + 1) * (mask.length + 2) + (mask.length + 2) := by
    rw [Nat.mul_comm, ← Nat.succ_mul]
  rw [Nat.sub_zero, Nat.sub_zero]
  omega

/-- With the `match` of the server, the list that `add_id` keeps is one of those
`is_nuhed` is about. -/
theorem isNuhedBy_ircMatch (cptr : BanClient) (list : List NuhEntry) :
    isNuhed cptr (list.map fun e => some ⟨some e.nuhstr⟩) =
      (isNuhedBy ircMatch cptr list).map fun e => ⟨some e.nuhstr⟩ := by
  rw [isNuhed, isNuhedBy]
  cases cptr.user with
  | none => rfl
  | some user =>
      dsimp only
      split
      · rfl
      · induction list with
        | nil => rfl
        | cons e list ih =>
            rw [List.map_cons, nuhedLoop, List.find?_cons]
            dsimp only
            split
            · next h => rw [decide_eq_true h, Option.map_some]
            · next h => rw [decide_eq_false h, ih]

/-! ## Types of masks -/

theorem mtypOf_ne_full {id : List UInt8} (h : mtypOf id ≠ .full) :
    (∃ rest, id = 0x2a :: 0x21 :: rest) ∨ ∃ rest, id = 0x23 :: rest := by
  rw [mtypOf] at h
  split at h
  · next hstar =>
      match id, hstar with
      | c :: d :: rest, ⟨hc, hd⟩ =>
          rw [List.getD_cons_zero] at hc
          rw [List.getD_cons_succ, List.getD_cons_zero] at hd
          exact .inl ⟨rest, by rw [hc, hd]⟩
  · split at h
    · next hhash =>
        match id, hhash with
        | c :: rest, hc =>
            rw [List.getD_cons_zero] at hc
            exact .inr ⟨rest, by rw [hc]⟩
    · exact absurd rfl h

theorem suffix_of_notMem {α : Type} {d : α} {v tail : List α} : ∀ {n : List α}, d ∉ n →
    d :: v <:+ n ++ tail → d :: v <:+ tail
  | [], _, h => h
  | c :: n, hd, h => by
      rw [List.mem_cons, not_or] at hd
      rcases List.suffix_cons_iff.mp h with heq | h
      · exact absurd (List.cons.inj heq).1 hd.1
      · exact suffix_of_notMem hd.2 h

theorem sameLetter_bang {d : UInt8} (h : SameLetter 0x21 d) : d = 0x21 := by
  simp only [SameLetter, toLower] at h
  grind

theorem sameLetter_hash {d : UInt8} (h : SameLetter 0x23 d) : d = 0x23 := by
  simp only [SameLetter, toLower] at h
  grind

/-- A mask that begins with `*!` matches whatever the nick is. -/
theorem starBang_nick {rest nick nick' tail : List UInt8} (hbang : 0x21 ∉ nick)
    (h : InMask (0x2a :: 0x21 :: rest) (nick ++ 0x21 :: tail)) :
    InMask (0x2a :: 0x21 :: rest) (nick' ++ 0x21 :: tail) := by
  obtain ⟨v, hv, d, w, rfl, hd, hm⟩ := h
  rw [sameLetter_bang hd] at hv
  exact ⟨0x21 :: w, (suffix_of_notMem hbang hv).trans (List.suffix_append _ _), 0x21, w, rfl, rfl,
    hm⟩

/-- A mask that begins with `#` matches no nick that does not. -/
theorem hash_nick {rest text : List UInt8} (hhead : text.head? ≠ some 0x23) :
    ¬ InMask (0x23 :: rest) text := by
  rintro ⟨d, w, rfl, hd, -⟩
  rw [sameLetter_hash hd] at hhead
  exact hhead rfl

/-! ## A new nick -/

/-- What the check relies on in a nick. -/
structure ValidNick (nick : List UInt8) : Prop where
  zero : 0 ∉ nick
  bang : 0x21 ∉ nick
  hash : nick.head? ≠ some 0x23

/-- The three texts of a client under a nick. -/
def BanClient.textsAs (cptr : BanClient) (user : BanUser) (nick : List UInt8) :
    List (List UInt8) :=
  [makeNickUserHost nick user.username user.host,
    makeNickUserHost nick user.username cptr.hostip,
    makeNickUserHost nick user.username user.fakehost]

/-- The mask matches one of the texts. -/
def NuhEntry.Hits (e : NuhEntry) (texts : List (List UInt8)) : Prop :=
  ∃ t ∈ texts, InMask e.nuhstr t

instance (e : NuhEntry) (texts : List (List UInt8)) : Decidable (e.Hits texts) :=
  inferInstanceAs (Decidable (∃ t ∈ texts, InMask e.nuhstr t))

/-- A call of `add_id`. -/
structure AddIdCall where
  myClient : Bool
  id : List UInt8
  maxnums : Int
deriving DecidableEq, Repr

/-- The list after some calls, with the client and the limit of each. -/
def addIds (accepts : List UInt8 → List UInt8 → Int) (calls : List AddIdCall) : List NuhEntry :=
  calls.foldl (fun list c => (addId accepts c.myClient c.id c.maxnums list).1) []

theorem mem_addId {accepts : List UInt8 → List UInt8 → Int} {myClient : Bool} {id : List UInt8}
    {maxnums : Int} {list : List NuhEntry} {e : NuhEntry}
    (h : e ∈ (addId accepts myClient id maxnums list).1) : e ∈ list ∨ e = ⟨id, mtypOf id⟩ := by
  rw [addId] at h
  split at h
  · exact .inl h
  · exact (List.mem_cons.mp h).symm

/-- Every entry is the mask of a call, with its type. -/
theorem mem_addIds {accepts : List UInt8 → List UInt8 → Int} {calls : List AddIdCall}
    {e : NuhEntry} (h : e ∈ addIds accepts calls) :
    ∃ c ∈ calls, e = ⟨c.id, mtypOf c.id⟩ := by
  induction calls using List.reverseRecOn with
  | nil => cases h
  | append_singleton calls c ih =>
      rw [addIds, List.foldl_append] at h
      rcases mem_addId h with h | rfl
      · obtain ⟨c', hc', he⟩ := ih h
        exact ⟨c', List.mem_append_left _ hc', he⟩
      · exact ⟨c, List.mem_append_right _ List.mem_cons_self, rfl⟩

section Nick

variable {cptr : BanClient} {user : BanUser} {nick : List UInt8} {list : List NuhEntry}

theorem makeNickUserHost_nick (nick name host : List UInt8) :
    makeNickUserHost nick name host =
      (checkString nick).take nickLen ++
        0x21 :: ((checkString name).take userLen ++ 0x40 :: (checkString host).take hostLen) := by
  rw [makeNickUserHost, List.append_assoc, List.cons_append]

theorem ValidNick.checked (h : ValidNick nick) :
    0x21 ∉ (checkString nick).take nickLen ∧
      ((checkString nick).take nickLen).head? ≠ some 0x23 := by
  have hbang : 0x21 ∉ checkString nick := by
    rw [checkString]
    split
    · decide
    · exact fun hm => h.bang (mem_cutSpace hm)
  refine ⟨fun hm => hbang (List.mem_of_mem_take hm), ?_⟩
  have hlen : nickLen ≠ 0 := by decide
  rw [List.head?_take, if_neg hlen, checkString]
  split
  · decide
  · next hcut =>
      cases nick with
      | nil => exact absurd rfl hcut
      | cons c nick =>
          rw [cutSpace, List.takeWhile_cons] at hcut ⊢
          split at hcut
          · next hc =>
              rw [if_pos hc]
              exact h.hash
          · exact absurd rfl hcut

/-- What is no full mask and matches a text with the new nick matches it with any
other. -/
theorem inMask_other_nick {mask name host : List UInt8} (hnick : ValidNick nick)
    (htype : mtypOf mask ≠ .full) (nick' : List UInt8)
    (h : InMask mask (makeNickUserHost nick name host)) :
    InMask mask (makeNickUserHost nick' name host) := by
  obtain ⟨hbang, hhash⟩ := hnick.checked
  rw [makeNickUserHost_nick] at h ⊢
  rcases mtypOf_ne_full htype with ⟨rest, rfl⟩ | ⟨rest, rfl⟩
  · exact starBang_nick hbang h
  · refine absurd h (hash_nick ?_)
    rw [List.head?_append]
    cases hhead : ((checkString nick).take nickLen).head? with
    | none => simp
    | some c =>
        rw [hhead] at hhash
        exact hhash

/-- What is compared ends where it ends. -/
structure BanClient.Strings (cptr : BanClient) (user : BanUser) : Prop where
  clean : cptr.Clean user
  hostip : 0 ∉ cptr.hostip

theorem nickIsNuhed_isSome_iff (hperson : cptr.isPerson) (huser : cptr.user = some user)
    (hstrings : cptr.Strings user) (hnick : 0 ∉ nick)
    (hmasks : ∀ e ∈ list, 0 ∉ e.nuhstr ∧ 0x5c ∉ e.nuhstr) :
    (nickIsNuhed matchFree nick cptr list).isSome ↔
      ∃ e ∈ list, e.type = .full ∧ e.Hits (cptr.textsAs user nick) := by
  have hclean := hstrings.clean
  have hhost := zero_notMem_makeNickUserHost hnick hclean.username hclean.host
  have haddr := zero_notMem_makeNickUserHost hnick hclean.username hstrings.hostip
  have hfake := zero_notMem_makeNickUserHost hnick hclean.username hclean.fakehost
  rw [nickIsNuhed, huser]
  dsimp only
  rw [if_neg (not_not_intro hperson), List.find?_isSome]
  refine exists_congr fun e => and_congr_right fun he => ?_
  obtain ⟨hzero, hslash⟩ := hmasks e he
  rw [decide_eq_true_iff, matchFree_iff hzero hhost hslash, matchFree_iff hzero haddr hslash,
    matchFree_iff hzero hfake hslash]
  simp [NuhEntry.Hits, BanClient.textsAs]

/-- `is_nuhed` answers for the host and the fake host only. -/
theorem isNuhedBy_eq_none (hperson : cptr.isPerson) (huser : cptr.user = some user)
    (hstrings : cptr.Strings user) (hmasks : ∀ e ∈ list, 0 ∉ e.nuhstr ∧ 0x5c ∉ e.nuhstr)
    (hnone : isNuhedBy matchFree cptr list = none) {e : NuhEntry} (he : e ∈ list) :
    ¬ InMask e.nuhstr (makeNickUserHost cptr.name user.username user.host) ∧
      ¬ InMask e.nuhstr (makeNickUserHost cptr.name user.username user.fakehost) := by
  have hclean := hstrings.clean
  have hhost := zero_notMem_makeNickUserHost hclean.name hclean.username hclean.host
  have hfake := zero_notMem_makeNickUserHost hclean.name hclean.username hclean.fakehost
  rw [isNuhedBy, huser] at hnone
  dsimp only at hnone
  rw [if_neg (not_not_intro hperson), List.find?_eq_none] at hnone
  obtain ⟨hzero, hslash⟩ := hmasks e he
  have hmiss := hnone e he
  rw [decide_eq_true_iff, matchFree_iff hzero hhost hslash, matchFree_iff hzero hfake hslash] at hmiss
  exact ⟨fun h => hmiss (.inl h), fun h => hmiss (.inr (.inr h))⟩

/-- For a client that `is_nuhed` finds no ban for, `nick_is_nuhed` is right just when a
full mask is met, or no other one is met by the address. -/
theorem nickIsNuhed_exact_iff {calls : List AddIdCall}
    (hcalls : ∀ c ∈ calls, 0 ∉ c.id ∧ 0x5c ∉ c.id) (hperson : cptr.isPerson)
    (huser : cptr.user = some user) (hstrings : cptr.Strings user) (hnick : ValidNick nick)
    (hnone : isNuhedBy matchFree cptr (addIds matchFree calls) = none) :
    ((nickIsNuhed matchFree nick cptr (addIds matchFree calls)).isSome ↔
        ∃ e ∈ addIds matchFree calls, e.Hits (cptr.textsAs user nick)) ↔
      ((∃ e ∈ addIds matchFree calls, e.type ≠ .full ∧
          InMask e.nuhstr (makeNickUserHost nick user.username cptr.hostip)) →
        ∃ e ∈ addIds matchFree calls, e.type = .full ∧ e.Hits (cptr.textsAs user nick)) := by
  have hmasks : ∀ e ∈ addIds matchFree calls, 0 ∉ e.nuhstr ∧ 0x5c ∉ e.nuhstr := by
    intro e he
    obtain ⟨c, hc, rfl⟩ := mem_addIds he
    exact hcalls c hc
  rw [nickIsNuhed_isSome_iff hperson huser hstrings hnick.zero hmasks]
  constructor
  · rintro h ⟨e, he, -, haddr⟩
    exact h.mpr ⟨e, he, _, by simp [BanClient.textsAs], haddr⟩
  · intro hfull
    refine ⟨fun ⟨e, he, _, hhits⟩ => ⟨e, he, hhits⟩, fun ⟨e, he, hhits⟩ => ?_⟩
    by_cases htype : e.type = .full
    · exact ⟨e, he, htype, hhits⟩
    · have hmtyp : mtypOf e.nuhstr ≠ .full := by
        obtain ⟨c, -, rfl⟩ := mem_addIds he
        exact htype
      obtain ⟨hhost, hfake⟩ := isNuhedBy_eq_none hperson huser hstrings hmasks hnone he
      obtain ⟨t, ht, hin⟩ := hhits
      simp only [BanClient.textsAs, List.mem_cons, List.not_mem_nil, or_false] at ht
      rcases ht with rfl | rfl | rfl
      · exact absurd (inMask_other_nick hnick hmtyp cptr.name hin) hhost
      · exact hfull ⟨e, he, htype, hin⟩
      · exact absurd (inMask_other_nick hnick hmtyp cptr.name hin) hfake

/-- The client `n!u@h`, and the bans `m!*@*` and `*!*@x`. -/
theorem nickIsNuhed_exact_full :
    let user : BanUser := ⟨[0x75], [0x68], [0x66], [], []⟩
    let cptr : BanClient := ⟨1, [0x6e], [0x31], statClient, 1, false, false, some user⟩
    let list := addIds matchFree
      [⟨true, [0x6d, 0x21, 0x2a, 0x40, 0x2a], 100⟩, ⟨true, [0x2a, 0x21, 0x2a, 0x40, 0x78], 100⟩]
    (nickIsNuhed matchFree [0x6d] cptr list).isSome ↔
      ∃ e ∈ list, e.Hits (cptr.textsAs user [0x6d]) :=
  (nickIsNuhed_exact_iff (by decide) rfl rfl
    ⟨⟨by decide, by decide, by decide, by decide⟩, by decide⟩ ⟨by decide, by decide, by decide⟩
    (by decide)).mpr (by decide)

/-- The ban `*!*@1` on the address of the same client: `is_nuhed` does not see it, and
`nick_is_nuhed` does not look. -/
theorem nickIsNuhed_misses_address :
    ¬ ∀ (calls : List AddIdCall) (cptr : BanClient) (user : BanUser) (nick : List UInt8),
      (∀ c ∈ calls, 0 ∉ c.id ∧ 0x5c ∉ c.id) → cptr.isPerson → cptr.user = some user →
      cptr.Strings user → ValidNick nick →
      isNuhedBy matchFree cptr (addIds matchFree calls) = none →
      ((nickIsNuhed matchFree nick cptr (addIds matchFree calls)).isSome ↔
        ∃ e ∈ addIds matchFree calls, e.Hits (cptr.textsAs user nick)) := by
  intro h
  have hiff := h [⟨true, [0x2a, 0x21, 0x2a, 0x40, 0x31], 100⟩]
    ⟨1, [0x6e], [0x31], statClient, 1, false, false, some ⟨[0x75], [0x68], [0x66], [], []⟩⟩
    ⟨[0x75], [0x68], [0x66], [], []⟩ [0x6d] (by decide) rfl rfl
    ⟨⟨by decide, by decide, by decide, by decide⟩, by decide⟩ ⟨by decide, by decide, by decide⟩
    (by decide)
  revert hiff
  decide

end Nick

end TrIrcd
