import Mathlib.Data.List.ReduceOption
import TrIrcd.Proofs.BanOrder
import TrIrcd.Proofs.MaskCost

/-!
# Which ban `is_nuhed` finds

A ban is wanted if its mask stands for one of the three texts of a client, and
it is met if `match` accepts one of those that `is_nuhed` compares. These are
two different notions: the text with the address is written over before it is
compared with anything, the two texts that are left are cut at white space and
at the lengths, and `match` gives up on a long search. The first ban of the
list that is either decides whether the answer is the right one.
-/

namespace TrIrcd

open TrIrcd.Lib

/-! ## The first of a list -/

/-- Two searches of a list agree exactly if they agree on the first that one of
them finds. -/
theorem find?_eq_iff {α : Type} {p q : α → Bool} {l : List α} :
    l.find? p = l.find? q ↔
      ∀ a, l.find? (fun a => p a || q a) = some a → p a = true ∧ q a = true := by
  induction l with
  | nil => exact iff_of_true rfl fun _ h => nomatch h
  | cons a l ih =>
      rw [List.find?_cons, List.find?_cons, List.find?_cons]
      cases hp : p a with
      | false =>
          cases hq : q a with
          | false => exact ih
          | true =>
              refine iff_of_false (fun h => ?_) fun h => ?_
              · have := List.find?_some h
                rw [hp] at this
                cases this
              · have := (h a rfl).1
                rw [hp] at this
                cases this
      | true =>
          cases hq : q a with
          | false =>
              refine iff_of_false (fun h => ?_) fun h => ?_
              · have := List.find?_some h.symm
                rw [hq] at this
                cases this
              · have := (h a rfl).2
                rw [hq] at this
                cases this
          | true => exact iff_of_true rfl fun b hb => Option.some.inj hb ▸ ⟨hp, hq⟩

/-! ## Wanted and met -/

/-- `nick!user@host` -/
def nuhText (nick name host : List UInt8) : List UInt8 := nick ++ 0x21 :: name ++ 0x40 :: host

/-- The texts a ban is about. -/
def BanClient.texts (cptr : BanClient) (user : BanUser) : List (List UInt8) :=
  [nuhText cptr.name user.username user.host, nuhText cptr.name user.username cptr.hostip,
    nuhText cptr.name user.username user.fakehost]

/-- The texts it is compared with. -/
def BanClient.kept (cptr : BanClient) (user : BanUser) : List (List UInt8) :=
  [makeNickUserHost cptr.name user.username user.host,
    makeNickUserHost cptr.name user.username user.fakehost]

/-- The mask of the ban stands for one of the texts. -/
def Nuh.Wanted (texts : List (List UInt8)) (e : Nuh) : Prop :=
  ∃ mask ∈ e.nuhstr, ∃ t ∈ texts, InMask mask t

/-- And this is found in time. -/
def Nuh.Met (texts : List (List UInt8)) (e : Nuh) : Prop :=
  ∃ mask ∈ e.nuhstr, ∃ t ∈ texts,
    InMask mask t ∧ patternCost SameLetter (readToks mask) t < matchMaxCalls

instance (texts : List (List UInt8)) (e : Nuh) : Decidable (e.Wanted texts) :=
  inferInstanceAs (Decidable (∃ mask ∈ e.nuhstr, ∃ t ∈ texts, InMask mask t))

instance (texts : List (List UInt8)) (e : Nuh) : Decidable (e.Met texts) :=
  inferInstanceAs (Decidable (∃ mask ∈ e.nuhstr, ∃ t ∈ texts,
    InMask mask t ∧ patternCost SameLetter (readToks mask) t < matchMaxCalls))

/-- The first ban of the list with the property. -/
def NuhList.first (list : NuhList) (P : Nuh → Prop) [DecidablePred P] : Option Nuh :=
  list.reduceOption.find? fun e => decide (P e)

variable {cptr : BanClient} {user : BanUser} {list : NuhList}

/-! ## The texts -/

theorem mem_cutSpace {c : UInt8} {s : List UInt8} (h : c ∈ cutSpace s) : c ∈ s :=
  (List.takeWhile_prefix _).subset h

theorem zero_notMem_checkString {s : List UInt8} (h : 0 ∉ s) : 0 ∉ checkString s := by
  rw [checkString]
  split
  · decide
  · exact fun hm => h (mem_cutSpace hm)

theorem zero_notMem_makeNickUserHost {nick name host : List UInt8} (hnick : 0 ∉ nick)
    (hname : 0 ∉ name) (hhost : 0 ∉ host) : 0 ∉ makeNickUserHost nick name host := by
  have hcut : ∀ {s : List UInt8} (k : Nat), 0 ∉ s → 0 ∉ (checkString s).take k :=
    fun k hs hm => zero_notMem_checkString hs (List.mem_of_mem_take hm)
  rw [makeNickUserHost]
  simp only [List.mem_append, List.mem_cons, not_or]
  exact ⟨⟨hcut _ hnick, by decide, hcut _ hname⟩, by decide, hcut _ hhost⟩

theorem length_makeNickUserHost (nick name host : List UInt8) :
    (makeNickUserHost nick name host).length ≤ nickLen + userLen + hostLen + 2 := by
  rw [makeNickUserHost]
  simp only [List.length_append, List.length_cons, List.length_take]
  omega

/-- A string that `check_string` leaves as it is. -/
def Whole (len : Nat) (s : List UInt8) : Prop :=
  s ≠ [] ∧ (∀ c ∈ s, isSpace c = false) ∧ s.length ≤ len

/-- Strings without white space that fit are taken as they are. -/
theorem makeNickUserHost_eq {nick name host : List UInt8}
    (hnick : Whole nickLen nick) (hname : Whole userLen name) (hhost : Whole hostLen host) :
    makeNickUserHost nick name host = nuhText nick name host := by
  have hcheck : ∀ {s : List UInt8} {k : Nat}, Whole k s → (checkString s).take k = s := by
    rintro s k ⟨hne, hspace, hlen⟩
    have hcut : cutSpace s = s :=
      List.takeWhile_eq_self_iff.mpr fun c hc => by rw [hspace c hc]; rfl
    rw [checkString, hcut, if_neg hne, List.take_of_length_le hlen]
  rw [makeNickUserHost, hcheck hnick, hcheck hname, hcheck hhost, nuhText]

/-! ## The loop -/

/-- The loop stops at the first mask that `match` accepts. -/
theorem nuhedLoop_eq {s s2 fakeuhost : List UInt8} (p : Nuh → Bool)
    (hp : ∀ e, some e ∈ list → (p e = true ↔ ∃ mask ∈ e.nuhstr,
      ircMatch mask s = 0 ∨ ircMatch mask s2 = 0 ∨ ircMatch mask fakeuhost = 0)) :
    nuhedLoop s s2 fakeuhost list = list.reduceOption.find? p := by
  induction list with
  | nil => rfl
  | cons tmp list ih =>
      have ih := ih fun e he => hp e (List.mem_cons_of_mem _ he)
      cases tmp with
      | none => exact ih
      | some tmp =>
          have htmp := hp tmp (List.mem_cons_self ..)
          rw [List.reduceOption_cons_of_some, List.find?_cons, nuhedLoop]
          cases hn : tmp.nuhstr with
          | none =>
              have hmiss : p tmp = false := by
                rw [← Bool.not_eq_true, htmp, hn]
                rintro ⟨_, h, -⟩
                cases h
              rw [hmiss]
              exact ih
          | some mask =>
              dsimp only
              split
              · next hhit =>
                  rw [htmp.mpr ⟨mask, hn, hhit⟩]
              · next hmiss =>
                  have hmiss' : p tmp = false := by
                    rw [← Bool.not_eq_true, htmp, hn]
                    rintro ⟨_, h, hhit⟩
                    cases h
                    exact hmiss hhit
                  rw [hmiss']
                  exact ih

/-- The strings of a client end where they end. -/
structure BanClient.Clean (cptr : BanClient) (user : BanUser) : Prop where
  name : 0 ∉ cptr.name
  username : 0 ∉ user.username
  host : 0 ∉ user.host
  fakehost : 0 ∉ user.fakehost

/-- `is_nuhed` returns the first ban that is met. -/
theorem isNuhed_eq_met (hperson : cptr.isPerson) (huser : cptr.user = some user)
    (hclean : cptr.Clean user)
    (hmasks : ∀ e, some e ∈ list → ∀ mask ∈ e.nuhstr, 0 ∉ mask ∧ 0x5c ∉ mask) :
    isNuhed cptr list = NuhList.first list fun e => e.Met (cptr.kept user) := by
  rw [isNuhed, huser]
  dsimp only
  rw [if_neg (not_not.mpr hperson)]
  refine nuhedLoop_eq _ fun e he => ?_
  refine decide_eq_true_iff.trans ?_
  show (∃ mask ∈ e.nuhstr, ∃ t ∈ cptr.kept user, _) ↔ _
  refine exists_congr fun mask => and_congr_right fun hmask => ?_
  obtain ⟨hzero, hslash⟩ := hmasks e he mask hmask
  have hhost := ircMatch_cost hzero
    (zero_notMem_makeNickUserHost hclean.name hclean.username hclean.host) hslash
    (length_makeNickUserHost ..)
  have hfake := ircMatch_cost hzero
    (zero_notMem_makeNickUserHost hclean.name hclean.username hclean.fakehost) hslash
    (length_makeNickUserHost ..)
  rw [hhost, hfake, or_self]
  simp only [BanClient.kept, List.mem_cons, List.not_mem_nil, or_false, exists_eq_or_imp,
    exists_eq_left]

/-- The answer is the first ban that is wanted exactly if the first ban that is
wanted or met is both. -/
theorem isNuhed_exact_iff (hperson : cptr.isPerson) (huser : cptr.user = some user)
    (hclean : cptr.Clean user)
    (hmasks : ∀ e, some e ∈ list → ∀ mask ∈ e.nuhstr, 0 ∉ mask ∧ 0x5c ∉ mask) :
    (isNuhed cptr list = NuhList.first list fun e => e.Wanted (cptr.texts user)) ↔
      ∀ e, (NuhList.first list fun e => e.Met (cptr.kept user) ∨ e.Wanted (cptr.texts user)) =
          some e → e.Met (cptr.kept user) ∧ e.Wanted (cptr.texts user) := by
  rw [isNuhed_eq_met hperson huser hclean hmasks, NuhList.first, NuhList.first, find?_eq_iff,
    NuhList.first]
  simp only [decide_eq_true_iff, Bool.decide_or]

/-- A client with nothing to cut, and the ban `*!*@h` on its host. -/
theorem isNuhed_exact_host :
    let user : BanUser := ⟨[0x75], [0x68], [0x66], [], []⟩
    let cptr : BanClient := ⟨1, [0x6e], [0x31], statClient, 1, false, false, some user⟩
    let list : NuhList := [some ⟨some [0x2a, 0x21, 0x2a, 0x40, 0x68]⟩]
    isNuhed cptr list = NuhList.first list fun e => e.Wanted (cptr.texts user) := by
  refine (isNuhed_exact_iff rfl rfl ⟨by decide, by decide, by decide, by decide⟩ ?_).mpr ?_
  · intro e he mask hmask
    rw [List.mem_singleton.mp he |> Option.some.inj] at hmask
    cases hmask
    decide
  · decide

/-- The ban `*!*@1` on the address of the same client. -/
theorem isNuhed_misses_address :
    let user : BanUser := ⟨[0x75], [0x68], [0x66], [], []⟩
    let cptr : BanClient := ⟨1, [0x6e], [0x31], statClient, 1, false, false, some user⟩
    let list : NuhList := [some ⟨some [0x2a, 0x21, 0x2a, 0x40, 0x31]⟩]
    isNuhed cptr list = none ∧
      (NuhList.first list fun e => e.Wanted (cptr.texts user)) =
        some ⟨some [0x2a, 0x21, 0x2a, 0x40, 0x31]⟩ := by
  decide

/-! ## Strings that are not cut -/

/-- With such strings a ban that is met is wanted: only the address and the cap
of `match` are between the two. -/
theorem Nuh.Met.wanted {e : Nuh} (hname : Whole nickLen cptr.name)
    (husername : Whole userLen user.username) (hhost : Whole hostLen user.host)
    (hfake : Whole hostLen user.fakehost) (h : e.Met (cptr.kept user)) :
    e.Wanted (cptr.texts user) := by
  obtain ⟨mask, hmask, t, ht, hin, -⟩ := h
  refine ⟨mask, hmask, t, ?_, hin⟩
  rw [BanClient.kept, makeNickUserHost_eq hname husername hhost,
    makeNickUserHost_eq hname husername hfake] at ht
  rcases List.mem_cons.mp ht with rfl | ht
  · exact List.mem_cons_self ..
  · exact List.mem_cons_of_mem _ (List.mem_cons_of_mem _ ht)

/-- So the first ban that is wanted decides alone. -/
theorem isNuhed_whole_iff (hperson : cptr.isPerson) (huser : cptr.user = some user)
    (hclean : cptr.Clean user)
    (hmasks : ∀ e, some e ∈ list → ∀ mask ∈ e.nuhstr, 0 ∉ mask ∧ 0x5c ∉ mask)
    (hname : Whole nickLen cptr.name) (husername : Whole userLen user.username)
    (hhost : Whole hostLen user.host) (hfake : Whole hostLen user.fakehost) :
    (isNuhed cptr list = NuhList.first list fun e => e.Wanted (cptr.texts user)) ↔
      ∀ e, (NuhList.first list fun e => e.Wanted (cptr.texts user)) = some e →
        e.Met (cptr.kept user) := by
  rw [isNuhed_eq_met hperson huser hclean hmasks, NuhList.first, NuhList.first, find?_eq_iff]
  have hor : ∀ e : Nuh, (decide (e.Met (cptr.kept user)) || decide (e.Wanted (cptr.texts user))) =
      decide (e.Wanted (cptr.texts user)) := by
    intro e
    rw [← Bool.decide_or]
    refine decide_eq_decide.mpr (or_iff_right_of_imp ?_)
    exact Nuh.Met.wanted hname husername hhost hfake
  simp only [hor, decide_eq_true_iff]
  refine forall_congr' fun e => imp_congr_right fun hfirst => and_iff_left ?_
  have hwanted := List.find?_some hfirst
  exact of_decide_eq_true hwanted

end TrIrcd
