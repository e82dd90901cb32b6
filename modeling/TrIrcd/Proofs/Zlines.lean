import TrIrcd.Proofs.KillLevels
import TrIrcd.Proofs.MaskLanguage

/-!
# Which addresses a z-line is for

`create_maskitem` makes a z-line of every text that `parse_netmask` takes for a
block of addresses: numbers with dots, at most four of them, and behind them a
`*` or a number of bits. But `find_kill_level` compares the text of the z-line
with the text of the address. So what counts is how the block is written: the
text must be the address itself, or end in a star and begin like the address
(`Spells`). No text with a number of bits does, and none with fewer than four
numbers and no star.
-/

namespace TrIrcd

open TrIrcd.Lib
open MaskSt

/-- The text stands for a block of addresses that this one is in. -/
def Denotes (text hostip : List UInt8) : Prop :=
  ∃ net bits addr, parseNetmask text = .ok (.ipv4 net bits) ∧ hostip = inetntoa addr ∧
    matchIpv4 addr net bits = 0

/-- The text is the address as it is printed, or begins it up to a star. -/
def Spells (text hostip : List UInt8) : Prop :=
  text = hostip ∨ ∃ pre, text = pre ++ [0x2a] ∧ pre <+: hostip

/-- What stands in a netmask before a star: no wild card, and nothing that has
two cases. -/
def netChar (c : UInt8) : Bool := 0 < c && c < 0x3f && c ≠ 0x2a

variable {text hostip : List UInt8}

/-! ## The text of a netmask -/

theorem netChar_iff {c : UInt8} :
    netChar c = true ↔ 0 < c.toNat ∧ c.toNat < 0x3f ∧ c.toNat ≠ 0x2a := by
  have hne : c ≠ 0x2a ↔ c.toNat ≠ 0x2a := not_congr UInt8.toNat_inj.symm
  simp only [netChar, Bool.and_eq_true, decide_eq_true_iff, UInt8.lt_iff_toNat_lt, hne, and_assoc]
  exact Iff.rfl

theorem netChar_of_isDigit {c : UInt8} (h : isDigit c = true) : netChar c = true := by
  simp only [isDigit, Bool.and_eq_true, decide_eq_true_iff, UInt8.le_iff_toNat_le,
    UInt8.toNat_ofNat] at h
  rw [netChar_iff]
  omega

theorem netChar_of_isSpace {c : UInt8} (h : isSpace c = true) : netChar c = true := by
  simp only [isSpace, Bool.or_eq_true, Bool.and_eq_true, decide_eq_true_iff,
    UInt8.le_iff_toNat_le, UInt8.toNat_ofNat, ← UInt8.toNat_inj] at h
  rw [netChar_iff]
  omega

/-- Where `strtoul` comes to the end there is nothing but a number. -/
theorem netChar_of_strtoul {p : List UInt8} (h : (strtoul10 p).2 = []) :
    ∀ c ∈ p, netChar c = true := by
  by_cases hp : p = []
  · rw [hp]
    exact fun _ hc => nomatch hc
  have hend : ∀ {t : List UInt8} {v : UInt64},
      (if t.takeWhile isDigit = [] then (0, p) else (v, t.dropWhile isDigit)).2 = [] →
        ∀ c ∈ t, netChar c = true := by
    intro t v hrest c hc
    split at hrest
    · exact absurd hrest hp
    · exact netChar_of_isDigit (List.dropWhile_eq_nil_iff.mp hrest c hc)
  have hsigned : ∀ {t : List UInt8} {sign : UInt8}, netChar sign = true →
      (∀ c ∈ t, netChar c = true) → ∀ c ∈ sign :: t, netChar c = true := by
    intro t sign hsign ht c hc
    rcases List.mem_cons.mp hc with rfl | hc
    · exact hsign
    · exact ht c hc
  have hnumber : ∀ c ∈ p.dropWhile isSpace, netChar c = true := by
    simp only [strtoul10] at h
    split at h
    · next t ht =>
        rw [ht]
        exact hsigned (by decide) (hend h)
    · next t ht =>
        rw [ht]
        exact hsigned (by decide) (hend h)
    · exact hend h
  intro c hc
  rw [← List.takeWhile_append_dropWhile (p := isSpace) (l := p)] at hc
  rcases List.mem_append.mp hc with hc | hc
  · exact netChar_of_isSpace (List.mem_takeWhile_imp hc)
  · exact hnumber c hc

theorem scanV4_shape : ∀ {text : List UInt8} {prev : Option UInt8} {digits : List (List UInt8)}
    {r : List (List UInt8) × Int}, scanV4 prev text digits = some r →
    ∃ pre, (text = pre ∨ text = pre ++ [0x2a]) ∧ ∀ c ∈ pre, netChar c = true := by
  intro text
  induction text with
  | nil => exact fun _ => ⟨[], .inl rfl, fun _ hc => nomatch hc⟩
  | cons c p ih =>
      intro prev digits r h
      have hcons : netChar c = true → (∃ pre, (p = pre ∨ p = pre ++ [0x2a]) ∧
          ∀ c ∈ pre, netChar c = true) → ∃ pre, (c :: p = pre ∨ c :: p = pre ++ [0x2a]) ∧
          ∀ c ∈ pre, netChar c = true := by
        rintro hc ⟨pre, hp, hpre⟩
        refine ⟨c :: pre, hp.imp (congrArg _) (congrArg _), fun d hd => ?_⟩
        rcases List.mem_cons.mp hd with rfl | hd
        · exact hc
        · exact hpre d hd
      rw [scanV4] at h
      split at h
      · next hdigit => exact hcons (netChar_of_isDigit hdigit) (ih h)
      · split at h
        · next hdot =>
            split at h
            · cases h
            · exact hcons (by rw [hdot]; rfl) (ih h)
        · split at h
          · next hstar =>
              split at h
              · cases h
              · next hend =>
                  rw [not_or, not_not] at hend
                  exact ⟨[], .inr (by rw [hstar, hend.1]; rfl), fun _ hd => nomatch hd⟩
          · split at h
            · next hslash =>
                dsimp only at h
                split at h
                · cases h
                · next hbits =>
                    rw [not_or, not_not] at hbits
                    refine hcons (by rw [hslash]; rfl) ⟨p, .inl rfl, netChar_of_strtoul hbits.2⟩
            · cases h

/-- An accepted text is plain, but for a star at its end. -/
theorem parseNetmask_shape {net : UInt32} {bits : Int}
    (h : parseNetmask text = .ok (.ipv4 net bits)) :
    ∃ pre, (text = pre ∨ text = pre ++ [0x2a]) ∧ ∀ c ∈ pre, netChar c = true := by
  rw [parseNetmask] at h
  split at h
  · rw [tryParseV4Netmask] at h
    split at h
    · cases h
    · next heq => exact scanV4_shape heq
  · cases h

/-! ## What it matches -/

theorem sameLetter_iff_eq {c d : UInt8} (h : netChar c = true) : SameLetter c d ↔ c = d := by
  rw [netChar_iff] at h
  have hc : toLower c = c := by
    rw [toLower, if_neg]
    simp only [UInt8.le_iff_toNat_le, UInt8.toNat_ofNat]
    omega
  rw [SameLetter, hc, toLower]
  split
  · next hd =>
      simp only [UInt8.le_iff_toNat_le, UInt8.toNat_ofNat] at hd
      simp only [← UInt8.toNat_inj, UInt8.toNat_add, UInt8.toNat_ofNat]
      omega
  · exact Iff.rfl

theorem starts_map_lit : ∀ {pre w : List UInt8}, (∀ c ∈ pre, netChar c = true) →
    (Starts SameLetter (pre.map Tok.lit) w ↔ pre <+: w)
  | [], _, _ => iff_of_true trivial List.nil_prefix
  | _ :: _, [], _ => iff_of_false id fun h => List.cons_ne_nil _ _ (List.prefix_nil.mp h)
  | c :: pre, d :: w, h => by
      rw [List.map_cons, List.cons_prefix_cons, Starts,
        starts_map_lit fun e he => h e (List.mem_cons_of_mem _ he)]
      exact and_congr_left fun _ => sameLetter_iff_eq (h c (List.mem_cons_self ..))

theorem maskToks_netChars : ∀ {pre : List UInt8} (t : List UInt8), (∀ c ∈ pre, netChar c = true) →
    maskToks false (pre ++ t) = pre.map Tok.lit ++ maskToks false t
  | [], _, _ => rfl
  | c :: pre, t, h => by
      have hn := netChar_iff.mp (h c (List.mem_cons_self ..))
      rw [List.cons_append, maskToks_plain, if_neg, List.map_cons, List.cons_append,
        maskToks_netChars t fun d hd => h d (List.mem_cons_of_mem _ hd)]
      · rintro rfl
        exact absurd hn.2.1 (by decide)
      · rintro rfl
        exact absurd hn.2.2 (by decide)
      · rintro rfl
        exact absurd hn.2.1 (by decide)

theorem star_notMem_lits {pre : List UInt8} : Tok.star ∉ pre.map Tok.lit := by
  rw [List.mem_map]
  rintro ⟨c, -, hc⟩
  cases hc

theorem star_notMem_netChars {pre : List UInt8} (h : ∀ c ∈ pre, netChar c = true) :
    0x2a ∉ pre := fun hm => absurd (netChar_iff.mp (h _ hm)).2.2 (by decide)

/-- Read as a mask, an accepted text is for what it spells. -/
theorem inMask_iff_spells {pre : List UInt8} (ht : text = pre ∨ text = pre ++ [0x2a])
    (h : ∀ c ∈ pre, netChar c = true) : InMask text hostip ↔ Spells text hostip := by
  have hstar := star_notMem_netChars h
  rcases ht with rfl | rfl
  · have htoks := maskToks_netChars [] h
    have happ := @matches_append _ _ SameLetter [] _ hostip (@star_notMem_lits text)
    rw [List.append_nil, maskToks, List.append_nil] at htoks
    rw [List.append_nil] at happ
    rw [InMask, htoks, happ, starts_map_lit h, Matches, List.drop_eq_nil_iff, List.length_map]
    constructor
    · exact fun hm => .inl (hm.1.eq_of_length_le hm.2)
    · rintro (rfl | ⟨pre, rfl, -⟩)
      · exact ⟨List.prefix_refl _, Nat.le_refl _⟩
      · exact absurd (List.mem_append_right _ (List.mem_cons_self ..)) hstar
  · rw [InMask, maskToks_netChars _ h]
    show Matches SameLetter (_ ++ [Tok.star]) hostip ↔ _
    rw [matches_append star_notMem_lits, starts_map_lit h, and_iff_left matches_star_end]
    constructor
    · exact fun hp => .inr ⟨pre, rfl, hp⟩
    · rintro (rfl | ⟨pre', heq, hp⟩)
      · exact List.prefix_append _ _
      · rw [List.append_inj_left' heq rfl]
        exact hp

/-! ## How an address is printed -/

theorem isDigit_ipQuadTab (b : UInt8) : ∀ c ∈ ipQuadTab b, isDigit c = true := by
  intro c hc
  have hb := b.toNat_lt
  have hdigit : ∀ d : UInt8, d.toNat < 10 → isDigit (0x30 + d) = true := by
    intro d hd
    simp only [isDigit, Bool.and_eq_true, decide_eq_true_iff, UInt8.le_iff_toNat_le,
      UInt8.toNat_add, UInt8.toNat_ofNat]
    omega
  simp only [ipQuadTab, List.mem_append, List.mem_ite_nil_right, List.mem_singleton] at hc
  rcases hc with (⟨-, rfl⟩ | ⟨-, rfl⟩) | rfl
  · refine hdigit _ ?_
    rw [UInt8.toNat_div]
    show b.toNat / 100 < 10
    omega
  · refine hdigit _ ?_
    rw [UInt8.toNat_mod]
    exact Nat.mod_lt _ (by decide)
  · refine hdigit _ ?_
    rw [UInt8.toNat_mod]
    exact Nat.mod_lt _ (by decide)

theorem length_ipQuadTab (b : UInt8) : (ipQuadTab b).length ≤ 3 := by
  rw [ipQuadTab]
  split <;> split <;> simp

theorem inetntoa_spec (addr : UInt32) :
    (inetntoa addr).length ≤ 15 ∧ inetntoa addr ≠ [] ∧ ∀ c ∈ inetntoa addr, netChar c = true := by
  refine ⟨?_, by simp [inetntoa], ?_⟩
  · have := length_ipQuadTab (addr >>> 24).toUInt8
    have := length_ipQuadTab (addr >>> 16).toUInt8
    have := length_ipQuadTab (addr >>> 8).toUInt8
    have := length_ipQuadTab addr.toUInt8
    rw [inetntoa]
    simp only [List.length_append, List.length_cons]
    omega
  · have hquad : ∀ b, ∀ c ∈ ipQuadTab b, netChar c = true :=
      fun b c hc => netChar_of_isDigit (isDigit_ipQuadTab b c hc)
    intro c hc
    simp only [inetntoa, List.mem_append, List.mem_cons] at hc
    rcases hc with ((hc | rfl | hc) | rfl | hc) | rfl | hc
    all_goals first | exact hquad _ c hc | decide

/-- `match` finds the address exactly if the text spells it. -/
theorem ircMatch_iff_spells {net : UInt32} {bits : Int}
    (hnet : parseNetmask text = .ok (.ipv4 net bits)) (addr : UInt32) :
    ircMatch text (inetntoa addr) = 0 ↔ Spells text (inetntoa addr) := by
  obtain ⟨pre, htext, hpre⟩ := parseNetmask_shape hnet
  obtain ⟨hlen, -, hchars⟩ := inetntoa_spec addr
  have hmem : ∀ c ∈ text, netChar c = true ∨ c = 0x2a := by
    intro c hc
    rcases htext with rfl | rfl
    · exact .inl (hpre c hc)
    · rcases List.mem_append.mp hc with hc | hc
      · exact .inl (hpre c hc)
      · exact .inr (List.mem_singleton.mp hc)
  have hzero : 0 ∉ text := fun hm => absurd (hmem _ hm) (by decide)
  have hslash : 0x5c ∉ text := fun hm => absurd (hmem _ hm) (by decide)
  have hhost : 0 ∉ inetntoa addr := fun hm => absurd (hchars _ hm) (by decide)
  have hpaired := unpaired_of_notMem hslash
  have hsteady := steady_of_notMem hslash (inetntoa addr)
  rw [← inMask_iff_spells htext hpre, ← matches_readToks hslash]
  refine ⟨ircMatch_sound hzero hhost hpaired hsteady, fun hm => ?_⟩
  refine (ircMatch_iff hzero hhost hpaired hsteady ?_).mpr hm
  have htlen : text.length ≤ 16 := by
    rcases (inMask_iff_spells htext hpre).mp ((matches_readToks hslash).mp hm) with
      rfl | ⟨pre', rfl, hp⟩
    · exact hlen.trans (by decide)
    · rw [List.length_append, List.length_singleton]
      exact Nat.succ_le_succ (hp.length_le.trans hlen)
  calc (text.length + 2) * ((inetntoa addr).length + 2)
      ≤ (16 + 2) * (15 + 2) :=
        Nat.mul_le_mul (Nat.add_le_add_right htlen 2) (Nat.add_le_add_right hlen 2)
    _ ≤ matchMaxCalls := by decide

/-! ## The z-lines of the store -/

/-- Every z-line stands for addresses. -/
def Addressed (s : MaskSt) : Prop :=
  ∀ t, isZapline (t + 1) = true → ∀ ami ∈ s.items t,
    ∃ net bits, parseNetmask (s.item ami).string = .ok (.ipv4 net bits)

variable {s s' : MaskSt} {V : Nat → List Nat} {type ami : Nat} {E : MaskEnv}

theorem Addressed.swept {out : Nat → Nat → Prop} (h : Addressed s) (hs : Swept s s' out) :
    Addressed s' := by
  intro t ht x hx
  rw [hs.item]
  exact h t ht x ((hs.mem t x).mp hx).1

/-- A new ban of another type, or one with a text that stands for addresses. -/
theorem Addressed.addItem (h : Addressed s) (hp : Placed s V) (htype : 1 ≤ type) {hashval : Nat}
    {text : List UInt8} {username : Option (List UInt8)} {len : UInt64} {r : Option Nat}
    (hnew : isZapline type = true → ∃ net bits, parseNetmask text = .ok (.ipv4 net bits))
    (ha : addItem E type hashval text username len s = (r, s')) : Addressed s' := by
  simp only [TrIrcd.addItem, Prod.mk.injEq] at ha
  obtain ⟨-, rfl⟩ := ha
  have hfresh := E.alloc.pick_fresh s.used
  generalize E.alloc.pick s.used = ami at hfresh
  have hold : Contents s.lists s.items := ⟨V, hp.lists, hp.items_eq⟩
  have hdata := (hold.addNew E.alloc ami (type - 1)).data
  intro t ht x hx
  have hx' : x ∈ Function.update s.items (type - 1) (ami :: s.items (type - 1)) t := by
    rw [← hdata]
    exact hx
  have hcase : (t = type - 1 ∧ x = ami) ∨ x ∈ s.items t := by
    by_cases hk : t = type - 1
    · rw [hk, Function.update_self] at hx'
      exact (List.mem_cons.mp hx').imp (fun he => ⟨hk, he⟩) fun hin => hk ▸ hin
    · rw [Function.update_of_ne hk] at hx'
      exact .inr hx'
  rcases hcase with ⟨rfl, rfl⟩ | hin
  · show ∃ net bits, parseNetmask (Function.update s.item x _ x).string = _
    rw [Function.update_self]
    rw [Nat.sub_add_cancel htype] at ht
    exact hnew ht
  · have hne : x ≠ ami := fun he => hfresh (hp.used t ami (he ▸ hin))
    show ∃ net bits, parseNetmask (Function.update s.item ami _ x).string = _
    rw [Function.update_of_ne hne]
    exact h t ht x hin

theorem newItem_address {text : List UInt8} {user : Option (List UInt8)} {len : UInt64}
    {r : Option Nat} (ht : isZapline type = true)
    (h : newItem E (some text) user type len s = .ok (r, s')) (hr : r ≠ none) :
    ∃ net bits, parseNetmask text = .ok (.ipv4 net bits) := by
  have hmask : isUserMask type = false := by
    simp only [isZapline, Bool.or_eq_true, decide_eq_true_iff] at ht
    rcases ht with rfl | rfl <;> rfl
  rw [newItem.eq_def, hmask, if_neg Bool.false_ne_true, if_pos ht] at h
  obtain ⟨m, hm, h⟩ := bind_ok_iff.mp h
  cases m with
  | host =>
      cases h
      exact absurd rfl hr
  | ipv4 net bits => exact ⟨net, bits, hm⟩

theorem createMaskitem_addressed (hp : Placed s V) (h : Addressed s) (htype : 1 ≤ type)
    {string user : Option (List UInt8)} {len : UInt64} {r : Option Nat}
    (hc : createMaskitem E string user type len s = .ok (r, s')) : Addressed s' := by
  rw [createMaskitem] at hc
  generalize hf : TrIrcd.findMaskitem E string user type false s = found at hc
  obtain ⟨r₁, s₁⟩ := found
  obtain ⟨⟨out, hsw, -⟩, -⟩ := findMaskitem_placed E hp hf
  have h₁ := h.swept hsw
  obtain ⟨V₁, hp₁⟩ := hsw.placed
  cases r₁ with
  | some ami =>
      cases hc
      exact h₁
  | none =>
      rcases newItem_cases hc with ⟨-, rfl, -⟩ | ⟨text, hashval, username, rfl, -, ha⟩
      · exact h₁
      · refine h₁.addItem hp₁ htype (fun ht => newItem_address ht hc ?_) ha
        rw [← (Prod.mk.inj ha).1]
        exact Option.some_ne_none _

theorem perform_addressed (hp : Placed s V) (h : Addressed s) {call : MaskCall} {r : Option Nat}
    (hvalid : call.type.all (fun type => 1 ≤ type && type ≤ maskitemMask) = true)
    (hc : perform E s call = .ok (r, s')) : Addressed s' := by
  cases call with
  | create string user type len =>
      simp only [MaskCall.type, Option.all_some, Bool.and_eq_true, decide_eq_true_eq] at hvalid
      exact createMaskitem_addressed hp h hvalid.1 hc
  | find string user type m =>
      obtain ⟨⟨out, hsw, -⟩, -⟩ := findMaskitem_placed E hp (Except.ok.inj hc)
      exact h.swept hsw
  | terminate string user type =>
      cases hc
      obtain ⟨out, hsw, -⟩ := terminateMaskitem_placed E hp string user type
      exact h.swept hsw
  | expire =>
      cases hc
      exact h.swept (expireMaskitems_placed hp)
  | rehash type =>
      cases hc
      exact h.swept (sweep_placed hp (fun _ => true) (type - 1))

/-- Calls keep the store in order. -/
theorem step_addressed {op : MaskOp} (h : (∃ V, Placed s V) ∧ Addressed s)
    (hstep : step E s op = .ok s') : (∃ V, Placed s' V) ∧ Addressed s' := by
  obtain ⟨⟨V, hp⟩, ha⟩ := h
  simp only [step] at hstep
  split at hstep
  next => cases hstep
  next =>
    split at hstep
    next hv =>
      obtain ⟨⟨r, s₁⟩, hc, hs⟩ := map_ok_iff.mp hstep
      rw [← hs]
      exact ⟨(perform_performed E (hp.setClock op.now) hv hc).placed,
        perform_addressed (hp.setClock op.now) ha hv hc⟩
    next => cases hstep

theorem init_addressed (clock : Int) : Addressed (init clock) := by
  intro t _ ami hin
  rw [(init_placed clock).items_eq] at hin
  exact nomatch hin

/-! ## What becomes of a z-line -/

variable {K : KillEnv} {cptr : KillClient} {user : KillUser}

/-- A z-line whose time has not come spells the address. -/
def ZlineFor (s : MaskSt) (hostip : List UInt8) : Prop :=
  ∃ type ami, isZapline type = true ∧ Live s type ami ∧ Spells (s.item ami).string hostip

/-- The excludes come first, then the z-lines, and nothing behind them zaps. -/
theorem killChecks_split (useRegex : Bool) (hostip host name : List UInt8) :
    ∃ rest, killChecks useRegex hostip host name =
        [⟨host, some name, maskitemExclude, 0⟩, ⟨hostip, some name, maskitemExclude, 0⟩] ++
          ([⟨hostip, none, maskitemZapline, maskitemZapline⟩,
            ⟨hostip, none, maskitemZaplineConfig, maskitemZapline⟩] ++ rest) ∧
      ∀ k ∈ rest, k.ret ≠ maskitemZapline := by
  refine ⟨_, rfl, ?_⟩
  cases useRegex <;> simp [maskitemZapline, maskitemAutokill, maskitemKline]

/-- A client that no exclude is for is zapped exactly if a z-line hits. -/
theorem findKillLevel_zapline (h : Placed s V) (huser : cptr.user = some user)
    (hhost : cptr.sockhost.length ≤ hostLen) (hname : user.username.length ≤ userLen)
    (hconf : K.exemptKline cptr = false)
    (hexclude : ¬ K.Hits s cptr.sockhost (some user.username) maskitemExclude ∧
      ¬ K.Hits s cptr.hostip (some user.username) maskitemExclude) :
    (findKillLevel K cptr s).1 = maskitemZapline ↔
      K.Hits s cptr.hostip none maskitemZapline ∨
        K.Hits s cptr.hostip none maskitemZaplineConfig := by
  obtain ⟨rest, hsplit, hrest⟩ :=
    killChecks_split K.useRegex cptr.hostip cptr.sockhost user.username
  have htypes := killChecks_types K.useRegex cptr.hostip cptr.sockhost user.username
  rw [findKillLevel_eq huser hhost hname hconf, hsplit]
  rw [hsplit] at htypes
  obtain ⟨htypes₁, htypes⟩ := List.forall_mem_append.mp htypes
  obtain ⟨htypes₂, htypes₃⟩ := List.forall_mem_append.mp htypes
  obtain ⟨s₁, hlapsed, heq⟩ := firstHit_append_neg (K := K) ([⟨cptr.hostip, none, maskitemZapline,
    maskitemZapline⟩, ⟨cptr.hostip, none, maskitemZaplineConfig, maskitemZapline⟩] ++ rest) h
    htypes₁ (by
      rw [List.forall_mem_cons, List.forall_mem_singleton]
      exact hexclude)
  obtain ⟨V₁, h₁⟩ := hlapsed.same.1
  have hzaps : (∃ k ∈ ([⟨cptr.hostip, none, maskitemZapline, maskitemZapline⟩,
      ⟨cptr.hostip, none, maskitemZaplineConfig, maskitemZapline⟩] : List (KillCheck Nat)),
      k.Hits K s₁) ↔ K.Hits s cptr.hostip none maskitemZapline ∨
        K.Hits s cptr.hostip none maskitemZaplineConfig := by
    rw [List.exists_mem_cons_iff, List.exists_mem_cons_iff]
    simp only [KillCheck.Hits, hlapsed.hits, List.not_mem_nil, false_and, exists_false, or_false]
  rw [heq, ← hzaps]
  by_cases hhit : ∃ k ∈ ([⟨cptr.hostip, none, maskitemZapline, maskitemZapline⟩,
      ⟨cptr.hostip, none, maskitemZaplineConfig, maskitemZapline⟩] : List (KillCheck Nat)),
      k.Hits K s₁
  · obtain ⟨k, hk, ami, hsome⟩ := firstHit_append_pos rest h₁ htypes₂ hhit
    have hret : k.ret = maskitemZapline := by
      rcases List.mem_cons.mp hk with rfl | hk
      · rfl
      · rw [List.mem_singleton.mp hk]
    rw [hsome]
    exact iff_of_true hret hhit
  · obtain ⟨s₂, hlapsed', heq'⟩ := firstHit_append_neg rest h₁ htypes₂ fun k hk hit =>
      hhit ⟨k, hk, hit⟩
    obtain ⟨V₂, h₂⟩ := hlapsed'.same.1
    refine iff_of_false ?_ hhit
    rw [heq']
    rcases firstHit_cases K rest h₂ htypes₃ with ⟨hnone, -⟩ | ⟨k, hk, -, ami, hsome⟩
    · rw [hnone]
      decide
    · rw [hsome]
      exact hrest k hk

/-- A lookup for a z-line is one for a text that `match` accepts. -/
theorem hits_zapline (hmatch : K.maskMatch = ircMatch) (ht : isZapline type = true)
    {hostip : List UInt8} : K.Hits s hostip none type ↔ cstr hostip ≠ [] ∧
      ∃ ami, Live s type ami ∧ ircMatch (s.item ami).string hostip = 0 := by
  have hlt : type < 13 := by
    simp only [isZapline, Bool.or_eq_true, decide_eq_true_iff] at ht
    omega
  rw [KillEnv.Hits]
  simp only [KillEnv.found, foundBy, if_pos hlt, if_true, hmatch, Bool.and_true,
    decide_eq_true_iff]

/-- For an address it is one for a text that spells it. -/
theorem hits_zapline_iff (hmatch : K.maskMatch = ircMatch) (ha : Addressed s) (addr : UInt32) :
    (K.Hits s (inetntoa addr) none maskitemZapline ∨
        K.Hits s (inetntoa addr) none maskitemZaplineConfig) ↔ ZlineFor s (inetntoa addr) := by
  obtain ⟨-, hne, hchars⟩ := inetntoa_spec addr
  have hcstr : cstr (inetntoa addr) ≠ [] := by
    rw [cstr_of_notMem fun hm => absurd (hchars _ hm) (by decide)]
    exact hne
  have hone : ∀ {type : Nat}, isZapline type = true → (K.Hits s (inetntoa addr) none type ↔
      ∃ ami, Live s type ami ∧ Spells (s.item ami).string (inetntoa addr)) := by
    intro type ht
    rw [hits_zapline hmatch ht, and_iff_right hcstr]
    refine exists_congr fun ami => and_congr_right fun hl => ?_
    have ht' : isZapline (type - 1 + 1) = true := by
      have : 1 ≤ type := by
        simp only [isZapline, Bool.or_eq_true, decide_eq_true_iff] at ht
        omega
      rw [Nat.sub_add_cancel this]
      exact ht
    obtain ⟨net, bits, hnet⟩ := ha (type - 1) ht' ami hl.1
    exact ircMatch_iff_spells hnet addr
  rw [hone rfl, hone rfl]
  constructor
  · rintro (⟨ami, hl, hs⟩ | ⟨ami, hl, hs⟩)
    · exact ⟨_, ami, rfl, hl, hs⟩
    · exact ⟨_, ami, rfl, hl, hs⟩
  · rintro ⟨type, ami, ht, hl, hs⟩
    simp only [isZapline, Bool.or_eq_true, decide_eq_true_iff] at ht
    rcases ht with rfl | rfl
    · exact .inl ⟨ami, hl, hs⟩
    · exact .inr ⟨ami, hl, hs⟩

/-- Two accepted texts that `irc_strcmp` takes for equal are. -/
theorem eq_of_ircStrcmp {a b : List UInt8} {net net' : UInt32} {bits bits' : Int}
    (ha : parseNetmask a = .ok (.ipv4 net bits)) (hb : parseNetmask b = .ok (.ipv4 net' bits'))
    (h : ircStrcmp a b = 0) : a = b := by
  have hsame : ∀ {t : List UInt8} {net : UInt32} {bits : Int},
      parseNetmask t = .ok (.ipv4 net bits) → (cstr t).map toUpper = t := by
    intro t net bits ht
    obtain ⟨pre, htext, hpre⟩ := parseNetmask_shape ht
    have hchars : ∀ c ∈ t, 0 < c.toNat ∧ c.toNat < 0x61 := by
      intro c hc
      rcases htext with rfl | rfl
      · have := netChar_iff.mp (hpre c hc)
        omega
      · rcases List.mem_append.mp hc with hc | hc
        · have := netChar_iff.mp (hpre c hc)
          omega
        · rw [List.mem_singleton.mp hc]
          decide
    rw [cstr_of_notMem fun hm => absurd (hchars _ hm).1 (by decide)]
    refine (List.map_congr_left fun c hc => ?_).trans (List.map_id t)
    rw [toUpper, if_neg]
    · rfl
    · simp only [UInt8.le_iff_toNat_le, UInt8.toNat_ofNat]
      have := hchars c hc
      omega
  rw [← hsame ha, ← hsame hb]
  exact ircStrcmp_eq_zero.mp h

/-- The z-line that was made for a text has this text. -/
theorem createMaskitem_string {creator : Option (List UInt8)} {len : UInt64} {net : UInt32}
    {bits : Int} (hp : Placed s V) (ha : Addressed s) (ht : isZapline type = true)
    (hc : createMaskitem E (some text) creator type len s = .ok (some ami, s'))
    (hnet : parseNetmask text = .ok (.ipv4 net bits)) : (s'.item ami).string = text := by
  have htype : 1 ≤ type := by
    simp only [isZapline, Bool.or_eq_true, decide_eq_true_iff] at ht
    omega
  have hanswer := (createMaskitem_performed E hp htype hc).answer
  rcases hanswer with ⟨hnone, -⟩ | ⟨ami', text', hami, htext, hin, hcmp⟩
  · cases hnone
  · cases hami
    cases htext
    obtain ⟨net', bits', hnet'⟩ := createMaskitem_addressed hp ha htype hc (type - 1)
      (by rw [Nat.sub_add_cancel htype]; exact ht) ami hin
    exact eq_of_ircStrcmp hnet' hnet hcmp

/-- A z-line that is still there zaps a client from its block exactly if it
spells the address, or another z-line does. -/
theorem zline_effect_iff (hmatch : K.maskMatch = ircMatch) (clock : Int) (ops : List MaskOp)
    {s₀ s₁ s : MaskSt} (hrun : run (step E) (init clock) ops = .ok s₀) (now : Int)
    {creator : Option (List UInt8)} {len : UInt64} (ht : isZapline type = true)
    (hcreate : createMaskitem E (some text) creator type len { s₀ with clock := now } =
      .ok (some ami, s₁))
    (ops' : List MaskOp) (hrun' : run (step E) s₁ ops' = .ok s)
    (hlive : Live s type ami) (hkept : s.item ami = s₁.item ami)
    (huser : cptr.user = some user) (hhost : cptr.sockhost.length ≤ hostLen)
    (hname : user.username.length ≤ userLen) (hconf : K.exemptKline cptr = false)
    (hexclude : ¬ K.Hits s cptr.sockhost (some user.username) maskitemExclude ∧
      ¬ K.Hits s cptr.hostip (some user.username) maskitemExclude) :
    (Denotes text cptr.hostip → (findKillLevel K cptr s).1 = maskitemZapline) ↔
      (Denotes text cptr.hostip → Spells text cptr.hostip ∨ ∃ type' z, z ≠ ami ∧
        isZapline type' = true ∧ Live s type' z ∧ Spells (s.item z).string cptr.hostip) := by
  have h₀ : (∃ V, Placed s₀ V) ∧ Addressed s₀ :=
    run_invariant (I := fun s => (∃ V, Placed s V) ∧ Addressed s) (fun _ _ _ => step_addressed) ops
      ⟨⟨_, init_placed clock⟩, init_addressed clock⟩ hrun
  obtain ⟨V₀, hp₀⟩ := h₀.1
  have htype : 1 ≤ type := by
    simp only [isZapline, Bool.or_eq_true, decide_eq_true_iff] at ht
    omega
  have ha₀ : Addressed { s₀ with clock := now } := h₀.2
  have h₁ : (∃ V, Placed s₁ V) ∧ Addressed s₁ :=
    ⟨(createMaskitem_performed E (hp₀.setClock now) htype hcreate).placed,
      createMaskitem_addressed (hp₀.setClock now) ha₀ htype hcreate⟩
  obtain ⟨⟨V, hp⟩, ha⟩ : (∃ V, Placed s V) ∧ Addressed s :=
    run_invariant (I := fun s => (∃ V, Placed s V) ∧ Addressed s) (fun _ _ _ => step_addressed) ops'
      h₁ hrun'
  refine forall_congr' fun hdenotes => ?_
  obtain ⟨net, bits, addr, hnet, hprint, -⟩ := hdenotes
  have hstring : (s.item ami).string = text := by
    rw [hkept]
    exact createMaskitem_string (hp₀.setClock now) ha₀ ht hcreate hnet
  rw [findKillLevel_zapline hp huser hhost hname hconf hexclude, hprint,
    hits_zapline_iff hmatch ha addr]
  constructor
  · rintro ⟨type', z, hz, hl, hs⟩
    by_cases he : z = ami
    · rw [he, hstring] at hs
      exact .inl hs
    · exact .inr ⟨type', z, he, hz, hl, hs⟩
  · rintro (hs | ⟨type', z, -, hz, hl, hs⟩)
    · exact ⟨type, ami, ht, hlive, hstring.symm ▸ hs⟩
    · exact ⟨type', z, hz, hl, hs⟩

section Samples

/-- No confs and no patterns. -/
def zlineKills : KillEnv where
  alloc := Allocator.bump
  maskMatch := ircMatch
  reMatch _ _ := -1
  iregMatch _ _ := 0
  confs := []
  useRegex := false
  serverKlineAddress := []
  networkKlineAddress := []

/-- `10.1.2.3` -/
def zlineAddress : List UInt8 := [0x31, 0x30, 0x2e, 0x31, 0x2e, 0x32, 0x2e, 0x33]

def zlineClient : KillClient := ⟨zlineAddress, zlineAddress, some ⟨[0x75]⟩⟩

/-- The z-line `10.*` zaps `10.1.2.3`. -/
theorem zline_effect_star : ∃ ami s,
    createMaskitem zlineKills.toMaskEnv (some [0x31, 0x30, 0x2e, 0x2a]) none maskitemZapline 0
      (init 100) = .ok (some ami, s) ∧
    (Denotes [0x31, 0x30, 0x2e, 0x2a] zlineAddress →
      (findKillLevel zlineKills zlineClient s).1 = maskitemZapline) := by
  obtain ⟨ami, s, hcreate, hlive, hnone⟩ : ∃ ami s,
      createMaskitem zlineKills.toMaskEnv (some [0x31, 0x30, 0x2e, 0x2a]) none maskitemZapline 0
        (init 100) = .ok (some ami, s) ∧ Live s maskitemZapline ami ∧
        s.items (maskitemExclude - 1) = [] :=
    ⟨_, _, rfl, ⟨List.mem_singleton_self _, rfl⟩, by rfl⟩
  refine ⟨ami, s, hcreate, ?_⟩
  show Denotes _ zlineClient.hostip → _
  exact (zline_effect_iff rfl 100 [] rfl 100 rfl hcreate [] rfl hlive rfl rfl
    (by decide) (by decide) rfl ⟨not_hits_of_items_nil hnone _ _,
      not_hits_of_items_nil hnone _ _⟩).mpr fun _ => .inl (.inr ⟨[0x31, 0x30, 0x2e], rfl, by decide⟩)

/-- The z-line `10.0.0.0/8` does not. -/
theorem zline_without_effect : ∃ ami s,
    createMaskitem zlineKills.toMaskEnv (some netText) none maskitemZapline 0 (init 100) =
      .ok (some ami, s) ∧ Live s maskitemZapline ami ∧ Denotes netText zlineAddress ∧
    zlineKills.exemptKline zlineClient = false ∧ s.items (maskitemExclude - 1) = [] ∧
    (findKillLevel zlineKills zlineClient s).1 = 0 := by
  refine ⟨_, _, rfl, ⟨List.mem_singleton_self _, rfl⟩, ⟨_, _, 0x0a010203, rfl, by decide, by decide⟩,
    rfl, by rfl, by decide⟩

end Samples

end TrIrcd
