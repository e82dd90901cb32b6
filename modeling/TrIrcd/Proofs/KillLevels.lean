import TrIrcd.Proofs.MaskStore
import TrIrcd.Src.Kline

/-!
# The two checks for a ban

A lookup lets go of the bans whose time has come, and of no others, so a later
one finds what it would have found at first (`Lapsed.live`). So a check answers
what the first lookup stands for that hits in the store as it is
(`firstHit_eq`), and whether it turns a client away does not depend on the
order. The lookups of the two checks are the same but for the patterns: a
client that is there is compared with them as `user@host`, one that comes in as
`host`.
-/

namespace TrIrcd

open TrIrcd.Lib
open MaskSt

/-- A ban whose time has not come. -/
def Live (s : MaskSt) (type ami : Nat) : Prop :=
  ami ∈ s.items (type - 1) ∧ (s.item ami).expired s.clock = false

/-- A lookup finds something. -/
def KillEnv.Hits (K : KillEnv) (s : MaskSt) (string : List UInt8) (user : Option (List UInt8))
    (type : Nat) : Prop :=
  cstr string ≠ [] ∧ ∃ ami, Live s type ami ∧ K.found string user type (s.item ami) = true

variable {K : KillEnv} {s s' : MaskSt} {V : Nat → List Nat} {type ami : Nat} {α : Type}

/-! ## A lookup -/

theorem MaskSt.Lapsed.refl (h : Placed s V) : Lapsed s s :=
  ⟨_, h.swept, fun _ _ hx => hx.elim⟩

theorem MaskSt.Lapsed.same (h : Lapsed s s') :
    (∃ V', Placed s' V') ∧ s'.item = s.item ∧ s'.clock = s.clock := by
  obtain ⟨out, hsw, -⟩ := h
  exact ⟨hsw.placed, hsw.item, hsw.clock⟩

/-- What has not expired is still there. -/
theorem MaskSt.Lapsed.live (h : Lapsed s s') : Live s' type ami ↔ Live s type ami := by
  obtain ⟨-, hitem, hclock⟩ := h.same
  obtain ⟨out, hsw, hout⟩ := h
  rw [Live, Live, hitem, hclock, hsw.mem]
  constructor
  · exact fun hl => ⟨hl.1.1, hl.2⟩
  · intro hl
    refine ⟨⟨hl.1, fun ho => ?_⟩, hl.2⟩
    have hexp := hout _ _ ho
    rw [hl.2] at hexp
    cases hexp

theorem MaskSt.Lapsed.hits (h : Lapsed s s') {string : List UInt8} {user : Option (List UInt8)} :
    K.Hits s' string user type ↔ K.Hits s string user type := by
  simp only [KillEnv.Hits, h.live, h.same.2.1]

/-- What a sweep leaves on a list. -/
theorem mem_items_expire (h : Placed s V) (htype : type ≤ maskitemMask) :
    ami ∈ (expireMaskitems s).items (type - 1) ↔ Live s type ami := by
  have hlt : type - 1 < maskitemMask := by
    have : maskitemMask = 16 := rfl
    omega
  rw [Live, (expireMaskitems_placed h).mem, ← Bool.not_eq_true]
  exact and_congr_right fun _ => not_congr (and_iff_right hlt)

theorem findMaskitem_lapsed (K : KillEnv) (h : Placed s V) (string : List UInt8)
    (user : Option (List UInt8)) (type : Nat) :
    Lapsed s (K.findMaskitem string user type s).2 := by
  have hlapsed : Lapsed s (expireMaskitems s) :=
    ⟨_, expireMaskitems_placed h, fun k x hx => hx.2⟩
  rw [KillEnv.findMaskitem]
  split
  · exact .refl h
  · dsimp only
    exact hlapsed

theorem findMaskitem_isSome (K : KillEnv) (h : Placed s V) (htype : type ≤ maskitemMask)
    (string : List UInt8) (user : Option (List UInt8)) :
    (K.findMaskitem string user type s).1.isSome ↔ K.Hits s string user type := by
  rw [KillEnv.findMaskitem]
  split
  · next hnil => exact iff_of_false Bool.false_ne_true fun hh => hh.1 hnil
  · next hne =>
      have hitem := (expireMaskitems_placed h).item
      obtain ⟨V', h'⟩ := (expireMaskitems_placed h).placed
      dsimp only
      rw [Option.isSome_map, h'.lists.find, List.find?_isSome, hitem]
      constructor
      · rintro ⟨ptr, hptr, hfound⟩
        refine ⟨hne, _, (mem_items_expire h htype).mp ?_, hfound⟩
        rw [h'.items_eq]
        exact List.mem_map_of_mem hptr
      · rintro ⟨-, x, hlive, hfound⟩
        have hx := (mem_items_expire h htype).mpr hlive
        rw [h'.items_eq] at hx
        obtain ⟨ptr, hptr, rfl⟩ := List.mem_map.mp hx
        exact ⟨ptr, hptr, hfound⟩

/-! ## A check -/

/-- The lookup of a check finds something. -/
def KillCheck.Hits (K : KillEnv) (s : MaskSt) (k : KillCheck α) : Prop :=
  K.Hits s k.string k.user k.type

theorem firstHit_cons_pos (h : Placed s V) {k : KillCheck α} (htype : k.type ≤ maskitemMask)
    (hit : k.Hits K s) (ks : List (KillCheck α)) :
    ∃ ami, (firstHit K (k :: ks) s).1 = some (k.ret, ami) := by
  have hsome := (findMaskitem_isSome K h htype k.string k.user).mpr hit
  rw [firstHit]
  split
  · next ami s' heq => exact ⟨ami, rfl⟩
  · next s' heq =>
      rw [heq] at hsome
      cases hsome

theorem firstHit_cons_neg (h : Placed s V) {k : KillCheck α} (htype : k.type ≤ maskitemMask)
    (hit : ¬ k.Hits K s) (ks : List (KillCheck α)) :
    ∃ s', Lapsed s s' ∧ (firstHit K (k :: ks) s).1 = (firstHit K ks s').1 := by
  have hlapsed := findMaskitem_lapsed K h k.string k.user k.type
  have hsome := findMaskitem_isSome K h htype k.string k.user
  rw [firstHit]
  split
  · next ami s' heq =>
      rw [heq] at hsome
      exact absurd (hsome.mp rfl) hit
  · next s' heq =>
      rw [heq] at hlapsed
      exact ⟨s', hlapsed, rfl⟩

theorem MaskSt.Lapsed.trans {s₁ s₂ : MaskSt} (h : Lapsed s s₁) (h' : Lapsed s₁ s₂) :
    Lapsed s s₂ := by
  obtain ⟨out, hsw, hout⟩ := h
  obtain ⟨out', hsw', hout'⟩ := h'
  refine ⟨_, hsw.trans hsw', fun k x hx => hx.elim (hout k x) fun hx => ?_⟩
  rw [← hsw.item, ← hsw.clock]
  exact hout' k x hx

/-- Lookups that do not hit are gone by. -/
theorem firstHit_append_neg (ks' : List (KillCheck α)) : ∀ {ks : List (KillCheck α)} {s : MaskSt}
    {V : Nat → List Nat}, Placed s V → (∀ k ∈ ks, k.type ≤ maskitemMask) →
    (∀ k ∈ ks, ¬ k.Hits K s) →
    ∃ s', Lapsed s s' ∧ (firstHit K (ks ++ ks') s).1 = (firstHit K ks' s').1
  | [], s, _, h, _, _ => ⟨s, .refl h, rfl⟩
  | k :: ks, s, _, h, htypes, hmiss => by
      obtain ⟨s₁, hlapsed, heq⟩ := firstHit_cons_neg h (htypes k (List.mem_cons_self ..))
        (hmiss k (List.mem_cons_self ..)) (ks ++ ks')
      obtain ⟨V₁, h₁⟩ := hlapsed.same.1
      obtain ⟨s₂, hlapsed', heq'⟩ := firstHit_append_neg ks' h₁
        (fun k hk => htypes k (List.mem_cons_of_mem _ hk))
        fun k hk hit => hmiss k (List.mem_cons_of_mem _ hk) (hlapsed.hits.mp hit)
      exact ⟨s₂, hlapsed.trans hlapsed', heq.trans heq'⟩

/-- Behind one that hits there is nothing. -/
theorem firstHit_append_pos (ks' : List (KillCheck α)) : ∀ {ks : List (KillCheck α)} {s : MaskSt}
    {V : Nat → List Nat}, Placed s V → (∀ k ∈ ks, k.type ≤ maskitemMask) →
    (∃ k ∈ ks, k.Hits K s) →
    ∃ k ∈ ks, ∃ ami, (firstHit K (ks ++ ks') s).1 = some (k.ret, ami)
  | [], _, _, _, _, hhit => nomatch hhit.choose_spec.1
  | k :: ks, s, _, h, htypes, hhit => by
      have htype := htypes k (List.mem_cons_self ..)
      by_cases hk : k.Hits K s
      · exact ⟨k, List.mem_cons_self .., firstHit_cons_pos h htype hk (ks ++ ks')⟩
      · obtain ⟨s₁, hlapsed, heq⟩ := firstHit_cons_neg h htype hk (ks ++ ks')
        obtain ⟨V₁, h₁⟩ := hlapsed.same.1
        obtain ⟨k', hk', hit'⟩ := hhit
        have hin : k' ∈ ks := (List.mem_cons.mp hk').resolve_left fun he => hk (he ▸ hit')
        obtain ⟨k₂, hk₂, hsome⟩ := firstHit_append_pos ks' h₁
          (fun k hk => htypes k (List.mem_cons_of_mem _ hk)) ⟨k', hin, hlapsed.hits.mpr hit'⟩
        exact ⟨k₂, List.mem_cons_of_mem _ hk₂, heq ▸ hsome⟩

/-- A check answers what a lookup that hits stands for, if there is one. -/
theorem firstHit_cases (K : KillEnv) : ∀ (ks : List (KillCheck α)) {s : MaskSt}
    {V : Nat → List Nat}, Placed s V → (∀ k ∈ ks, k.type ≤ maskitemMask) →
    ((firstHit K ks s).1 = none ∧ ∀ k ∈ ks, ¬ k.Hits K s) ∨
      ∃ k ∈ ks, k.Hits K s ∧ ∃ ami, (firstHit K ks s).1 = some (k.ret, ami)
  | [], _, _, _, _ => .inl ⟨rfl, fun _ hk => nomatch hk⟩
  | k :: ks, s, V, h, htypes => by
      have htype := htypes k (List.mem_cons_self ..)
      by_cases hit : k.Hits K s
      · exact .inr ⟨k, List.mem_cons_self .., hit, firstHit_cons_pos h htype hit ks⟩
      · obtain ⟨s', hlapsed, heq⟩ := firstHit_cons_neg h htype hit ks
        obtain ⟨V', h'⟩ := hlapsed.same.1
        have hsame : ∀ k : KillCheck α, k.Hits K s' ↔ k.Hits K s := fun k => hlapsed.hits
        rw [heq]
        rcases firstHit_cases K ks h' fun k hk => htypes k (List.mem_cons_of_mem _ hk) with
          ⟨hnone, hall⟩ | ⟨k', hk', hit', hsome⟩
        · refine .inl ⟨hnone, fun k' hk' => ?_⟩
          rcases List.mem_cons.mp hk' with rfl | hk'
          · exact hit
          · exact fun hh => hall k' hk' ((hsame k').mpr hh)
        · exact .inr ⟨k', List.mem_cons_of_mem _ hk', (hsame k').mp hit', hsome⟩

theorem firstHit_isSome (h : Placed s V) {ks : List (KillCheck α)}
    (htypes : ∀ k ∈ ks, k.type ≤ maskitemMask) :
    (firstHit K ks s).1.isSome ↔ ∃ k ∈ ks, k.Hits K s := by
  rcases firstHit_cases K ks h htypes with ⟨hnone, hall⟩ | ⟨k, hk, hit, ami, hsome⟩
  · rw [hnone]
    exact iff_of_false Bool.false_ne_true fun ⟨k, hk, hit⟩ => hall k hk hit
  · rw [hsome]
    exact iff_of_true rfl ⟨k, hk, hit⟩

theorem getD_ne_zero (h : Placed s V) {ks : List (KillCheck Nat)}
    (htypes : ∀ k ∈ ks, k.type ≤ maskitemMask) (hret : ∀ k ∈ ks, k.Hits K s → k.ret ≠ 0) :
    ((firstHit K ks s).1.map (·.1)).getD 0 ≠ 0 ↔ ∃ k ∈ ks, k.Hits K s := by
  rcases firstHit_cases K ks h htypes with ⟨hnone, hall⟩ | ⟨k, hk, hit, ami, hsome⟩
  · rw [hnone]
    exact iff_of_false (fun hne => hne rfl) fun ⟨k, hk, hit⟩ => hall k hk hit
  · rw [hsome]
    exact iff_of_true (hret k hk hit) ⟨k, hk, hit⟩

/-! ## The two checks -/

/-- A ban that is no pattern is for the user at this host. -/
def KillEnv.Masked (K : KillEnv) (s : MaskSt) (host name : List UInt8) : Prop :=
  K.Hits s host (some name) maskitemKline ∨ K.Hits s host (some name) maskitemKlineConfig ∨
    K.Hits s host (some name) maskitemAutokill

/-- A pattern matches the text. -/
def KillEnv.Patterned (K : KillEnv) (s : MaskSt) (text name : List UInt8) : Prop :=
  K.Hits s text (some name) maskitemKlineRegex

variable {cptr : KillClient} {user : KillUser}

theorem killChecks_types (useRegex : Bool) (hostip host name : List UInt8) :
    ∀ k ∈ killChecks useRegex hostip host name, k.type ≤ maskitemMask := by
  cases useRegex <;>
    simp [killChecks, maskitemMask, maskitemExclude, maskitemZapline, maskitemZaplineConfig,
      maskitemAutokill, maskitemKline, maskitemKlineConfig, maskitemKlineRegex]

/-- Only an exclude lets a client be. -/
theorem killChecks_ret (useRegex : Bool) (hostip host name : List UInt8) :
    ∀ k ∈ killChecks useRegex hostip host name, k.ret = 0 → k.type = maskitemExclude := by
  cases useRegex <;>
    simp [killChecks, maskitemZapline, maskitemAutokill, maskitemKline]

theorem killChecks_hits (K : KillEnv) (s : MaskSt) (hostip host name : List UInt8) :
    (∃ k ∈ killChecks K.useRegex hostip host name, k.Hits K s) ↔
      ((K.Hits s host (some name) maskitemExclude ∨ K.Hits s hostip (some name) maskitemExclude) ∨
        (K.Hits s hostip none maskitemZapline ∨ K.Hits s hostip none maskitemZaplineConfig)) ∨
      (K.Masked s hostip name ∨ K.Masked s host name) ∨ (K.useRegex = true ∧
        (K.Patterned s (userAtHost name hostip) name ∨
          K.Patterned s (userAtHost name host) name)) := by
  rw [killChecks]
  cases K.useRegex <;>
    simp only [if_true, if_false, Bool.false_eq_true, List.mem_append, List.mem_cons,
      List.not_mem_nil, or_false, false_and, true_and, or_and_right, exists_or, exists_eq_left,
      KillCheck.Hits, KillEnv.Masked, KillEnv.Patterned] <;>
    tauto

theorem hostChecks_types (K : KillEnv) (host name : List UInt8) :
    ∀ k ∈ hostChecks K host name, k.type ≤ maskitemMask := by
  rw [hostChecks]
  cases K.useRegex <;>
    simp [maskitemMask, maskitemAutokill, maskitemKline, maskitemKlineConfig, maskitemKlineRegex]

theorem hostChecks_hits (K : KillEnv) (s : MaskSt) (host name : List UInt8) :
    (∃ k ∈ hostChecks K host name, k.Hits K s) ↔
      K.Masked s host name ∨ (K.useRegex = true ∧ K.Patterned s host name) := by
  rw [hostChecks]
  cases K.useRegex <;> simp [KillCheck.Hits, KillEnv.Masked, KillEnv.Patterned, or_assoc]

/-- A client that comes in. -/
theorem findConnectionKillLevel_iff (h : Placed s V) (name : List UInt8) :
    (findConnectionKillLevel K cptr name s).1 = bannedClient ↔
      (K.Masked s cptr.hostip name ∨ K.Masked s cptr.sockhost name) ∨ (K.useRegex = true ∧
        (K.Patterned s cptr.hostip name ∨ K.Patterned s cptr.sockhost name)) := by
  have hsome := @firstHit_isSome K s V KillWords h
    (hostChecks K cptr.hostip name ++ hostChecks K cptr.sockhost name) fun k hk =>
      (List.mem_append.mp hk).elim (hostChecks_types K _ _ k) (hostChecks_types K _ _ k)
  have hbanned : (findConnectionKillLevel K cptr name s).1 = bannedClient ↔ (firstHit K
      (hostChecks K cptr.hostip name ++ hostChecks K cptr.sockhost name) s).1.isSome := by
    rw [findConnectionKillLevel]
    split
    · next w kconf s' heq =>
        rw [heq]
        exact iff_of_true rfl rfl
    · next s' heq =>
        rw [heq]
        exact iff_of_false (show (0 : Int) ≠ bannedClient by decide) Bool.false_ne_true
  rw [hbanned, hsome]
  simp only [List.mem_append, or_and_right, exists_or, hostChecks_hits]
  exact or_or_or_comm.trans (or_congr_right and_or_left.symm)

/-- A list without bans of a type has no hits. -/
theorem not_hits_of_items_nil (h : s.items (type - 1) = []) (string : List UInt8)
    (name : Option (List UInt8)) : ¬ K.Hits s string name type := by
  rintro ⟨-, ami, hlive, -⟩
  rw [Live, h] at hlive
  exact nomatch hlive.1

/-- The level of a client that the checks are made for. -/
theorem findKillLevel_eq (huser : cptr.user = some user)
    (hhost : cptr.sockhost.length ≤ hostLen) (hname : user.username.length ≤ userLen)
    (hconf : K.exemptKline cptr = false) (s : MaskSt) :
    (findKillLevel K cptr s).1 = ((firstHit K
      (killChecks K.useRegex cptr.hostip cptr.sockhost user.username) s).1.map (·.1)).getD 0 := by
  have hlen : ¬ (hostLen < cptr.sockhost.length ∨ hostLen < user.username.length) := by
    have : userLen ≤ hostLen := by decide
    omega
  rw [findKillLevel, huser]
  dsimp only
  rw [if_neg hlen, if_neg (by rw [hconf]; exact Bool.false_ne_true)]

/-- A client that is there. -/
theorem findKillLevel_iff (h : Placed s V) (huser : cptr.user = some user)
    (hhost : cptr.sockhost.length ≤ hostLen) (hname : user.username.length ≤ userLen)
    (hconf : K.exemptKline cptr = false)
    (hnone : s.items (maskitemExclude - 1) = [] ∧ s.items (maskitemZapline - 1) = [] ∧
      s.items (maskitemZaplineConfig - 1) = []) :
    (findKillLevel K cptr s).1 ≠ 0 ↔
      (K.Masked s cptr.hostip user.username ∨ K.Masked s cptr.sockhost user.username) ∨
        (K.useRegex = true ∧
          (K.Patterned s (userAtHost user.username cptr.hostip) user.username ∨
            K.Patterned s (userAtHost user.username cptr.sockhost) user.username)) := by
  obtain ⟨hexclude, hzap, hzapc⟩ := hnone
  rw [findKillLevel_eq huser hhost hname hconf, getD_ne_zero h (killChecks_types _ _ _ _),
    killChecks_hits, or_iff_right]
  · have hno : ∀ {type : Nat}, s.items (type - 1) = [] → ∀ string name,
        ¬ K.Hits s string name type := not_hits_of_items_nil
    rintro ((hh | hh) | (hh | hh))
    · exact hno hexclude _ _ hh
    · exact hno hexclude _ _ hh
    · exact hno hzap _ _ hh
    · exact hno hzapc _ _ hh
  · intro k hk hit hret
    rw [KillCheck.Hits, killChecks_ret _ _ _ _ k hk hret] at hit
    exact not_hits_of_items_nil hexclude _ _ hit

theorem or_and_iff_or_and {m r p q : Prop} : (m ∨ r ∧ p ↔ m ∨ r ∧ q) ↔ (r → ¬m → (p ↔ q)) := by
  tauto

/-- Both checks say the same of a client exactly if, where the patterns are in
use and no other ban is for it, a pattern matches one of its hosts just when
one matches a host with the user name before it. -/
theorem killLevels_agree_iff (E : MaskEnv) (clock : Int) (ops : List MaskOp)
    (hrun : run (step E) (init clock) ops = .ok s)
    (hnone : s.items (maskitemExclude - 1) = [] ∧ s.items (maskitemZapline - 1) = [] ∧
      s.items (maskitemZaplineConfig - 1) = [])
    (huser : cptr.user = some user) (hhost : cptr.sockhost.length ≤ hostLen)
    (hname : user.username.length ≤ userLen) (hconf : K.exemptKline cptr = false) :
    ((findConnectionKillLevel K cptr user.username s).1 = bannedClient ↔
        (findKillLevel K cptr s).1 ≠ 0) ↔
      (K.useRegex = true → ¬ K.Masked s cptr.hostip user.username →
        ¬ K.Masked s cptr.sockhost user.username →
        ((K.Patterned s cptr.hostip user.username ∨ K.Patterned s cptr.sockhost user.username) ↔
          (K.Patterned s (userAtHost user.username cptr.hostip) user.username ∨
            K.Patterned s (userAtHost user.username cptr.sockhost) user.username))) := by
  obtain ⟨V, h⟩ := run_placed E hrun
  rw [findConnectionKillLevel_iff h, findKillLevel_iff h huser hhost hname hconf hnone,
    or_and_iff_or_and, not_or, and_imp]

section Samples

/-- Masks are equal or not, and patterns have no operators. -/
def literalKills (useRegex : Bool) : KillEnv where
  alloc := Allocator.bump
  maskMatch mask name := if mask = name then 0 else 1
  reMatch _ _ := -1
  iregMatch ami text := if ami.string.isPrefixOf text then 1 else 0
  confs := []
  useRegex := useRegex
  serverKlineAddress := []
  networkKlineAddress := []

/-- `u` at `h`. -/
def killSample : KillClient := ⟨[0x31], [0x68], some ⟨[0x75]⟩⟩

def klineOps : List MaskOp := [⟨100, .create (some [0x68]) (some [0x75]) maskitemKline 0⟩]

/-- A K-line for `u` at `h` is for a client that comes in and for one that is
there. -/
theorem killLevels_agree_kline :
    ∃ s, run (step (literalKills false).toMaskEnv) (init 100) klineOps = .ok s ∧
      ((findConnectionKillLevel (literalKills false) killSample [0x75] s).1 = bannedClient ↔
        (findKillLevel (literalKills false) killSample s).1 ≠ 0) := by
  refine ⟨_, rfl, ?_⟩
  exact (killLevels_agree_iff (literalKills false).toMaskEnv 100 klineOps rfl
    ⟨by rfl, by rfl, by rfl⟩ rfl (by decide) (by decide) rfl).mpr fun h => absurd h (by decide)

/-- The pattern `u@h` is for a client that is there only. -/
theorem killLevels_differ :
    ∃ s, run (step (literalKills true).toMaskEnv) (init 100)
        [⟨100, .create (some [0x75, 0x40, 0x68]) none maskitemKlineRegex 0⟩] = .ok s ∧
      s.items (maskitemExclude - 1) = [] ∧ s.items (maskitemZapline - 1) = [] ∧
      s.items (maskitemZaplineConfig - 1) = [] ∧ (literalKills true).exemptKline killSample = false ∧
      (findConnectionKillLevel (literalKills true) killSample [0x75] s).1 = 0 ∧
      (findKillLevel (literalKills true) killSample s).1 = maskitemKline :=
  ⟨_, rfl, by rfl, by rfl, by rfl, rfl, by rfl, by rfl⟩

end Samples

end TrIrcd
