import TrIrcd.Src.Ident

/-!
# User names from ident replies

The three searches for a colon cut a reply into four fields, whatever they hold,
and the search for the comma cuts the first of them (`IdentName`); each search
ends at the NUL behind the reply at the latest, so nothing outside of the buffer
is read (`getValidIdent_spec`). The copy leaves out what a user name cannot have,
and stops in time (`copyIdent_spec`). It does not count what it copies: a name
that has nothing to copy is taken as one all the same, and then the user name is
empty (`identUsable_iff`).
-/

namespace TrIrcd

open TrIrcd.Lib

/-! ## The fields -/

/-- The reply has four fields, of which the first holds two ports, the second
`USERID`, and the last is the name. -/
def IdentName (text name : List UInt8) : Prop :=
  ∃ ports kind system, text = ports ++ 0x3a :: (kind ++ 0x3a :: (system ++ 0x3a :: name)) ∧
    0x3a ∉ ports ∧ 0x3a ∉ kind ∧ 0x3a ∉ system ∧
    (∃ remote here, ports = remote ++ 0x2c :: here ∧ 0x2c ∉ remote ∧
      atoi remote ≠ 0 ∧ atoi here ≠ 0) ∧ useridText <:+: kind

/-- What `GetValidIdent` can find: no name, or the place of it. -/
inductive IdentHeard (text rest : List UInt8) : Option Nat → List UInt8 → Prop
  | nothing {buf : List UInt8} (h : ∀ name, ¬ IdentName text name) : IdentHeard text rest none buf
  | name {s : Nat} {buf name : List UInt8} (h : IdentName text name)
      (hbuf : buf.drop s = name ++ 0 :: rest) : IdentHeard text rest (some s) buf

section Fields

variable {ports kind system tail name mem rest : List UInt8} {p : Nat}

theorem identName_fields (hports : 0x3a ∉ ports) (hkind : 0x3a ∉ kind)
    (h : IdentName (ports ++ 0x3a :: (kind ++ 0x3a :: tail)) name) :
    (∃ remote here, ports = remote ++ 0x2c :: here ∧ 0x2c ∉ remote ∧
      atoi remote ≠ 0 ∧ atoi here ≠ 0) ∧ useridText <:+: kind ∧ 0x3a ∈ tail := by
  obtain ⟨ports', kind', system, heq, hports', hkind', -, hnumbers, huserid⟩ := h
  obtain ⟨rfl, hrest⟩ := cut_unique hports hports' heq
  obtain ⟨rfl, rfl⟩ := cut_unique hkind hkind' hrest
  exact ⟨hnumbers, huserid, List.mem_append_right system (List.mem_cons_self ..)⟩

theorem identName_unique {text name' : List UInt8} (h : IdentName text name)
    (h' : IdentName text name') : name = name' := by
  obtain ⟨ports, kind, system, rfl, hports, hkind, hsystem, -⟩ := h
  obtain ⟨ports', kind', system', heq, hports', hkind', hsystem', -⟩ := h'
  obtain ⟨-, hrest⟩ := cut_unique hports hports' heq
  obtain ⟨-, hrest'⟩ := cut_unique hkind hkind' hrest
  exact (cut_unique hsystem hsystem' hrest').2

theorem stringAt_eq {text : List UInt8} (h0 : 0 ∉ text) (hmem : mem.drop p = text ++ 0 :: rest) :
    stringAt mem p = .ok text := by
  rw [stringAt, hmem, if_pos (List.mem_append_right text (List.mem_cons_self ..)),
    cstr_terminated h0]

end Fields

/-! ## `GetValidIdent` -/

section Valid

variable {ports remote here kind tail rest : List UInt8}

/-- Without a second colon there is no name. -/
theorem getValidIdent_colons (rest : List UInt8) {text : List UInt8} (h0 : 0 ∉ text)
    (h : ¬ ∃ ports kind tail,
      text = ports ++ 0x3a :: (kind ++ 0x3a :: tail) ∧ 0x3a ∉ ports ∧ 0x3a ∉ kind) :
    ∃ buf, getValidIdent (text ++ 0 :: rest) = .ok (none, buf) := by
  by_cases hone : 0x3a ∈ text
  · obtain ⟨ports, after, rfl, hports⟩ := List.eq_append_cons_of_mem hone
    have hports0 : 0 ∉ ports := fun hz => h0 (List.mem_append_left _ hz)
    have hafter0 : 0 ∉ after := fun hz =>
      h0 (List.mem_append_right ports (List.mem_cons_of_mem _ hz))
    have htwo : 0x3a ∉ after := by
      intro htwo
      obtain ⟨kind, tail, rfl, hkind⟩ := List.eq_append_cons_of_mem htwo
      exact h ⟨ports, kind, tail, rfl, hports, hkind⟩
    have hcolon1 : strchrIn 0x3a (ports ++ 0x3a :: (after ++ 0 :: rest)) 0 =
        .ok (some ports.length) := by
      rw [strchrIn_some hports0 hports rfl, Nat.zero_add]
    have hcolon2 : strchrIn 0x3a (ports ++ 0 :: (after ++ 0 :: rest)) (ports.length + 1) =
        .ok none :=
      strchrIn_none (by decide) hafter0 htwo (drop_middle ports _ 0 0)
    rw [List.append_assoc, List.cons_append]
    simp only [getValidIdent, hcolon1, hcolon2, putByte_middle, bind, Except.bind]
    exact ⟨_, rfl⟩
  · refine ⟨text ++ 0 :: rest, ?_⟩
    rw [getValidIdent, strchrIn_none (by decide) h0 hone rfl]
    rfl

/-- The first two colons, and what stands in their place. -/
theorem colons_cut (tail : List UInt8) (hports0 : 0 ∉ ports) (hkind0 : 0 ∉ kind)
    (hports : 0x3a ∉ ports) (hkind : 0x3a ∉ kind) :
    strchrIn 0x3a (ports ++ 0x3a :: (kind ++ 0x3a :: tail)) 0 = .ok (some ports.length) ∧
      putByte (ports ++ 0x3a :: (kind ++ 0x3a :: tail)) ports.length 0 =
        .ok (ports ++ 0 :: (kind ++ 0x3a :: tail)) ∧
      strchrIn 0x3a (ports ++ 0 :: (kind ++ 0x3a :: tail)) (ports.length + 1) =
        .ok (some (ports.length + 1 + kind.length)) ∧
      putByte (ports ++ 0 :: (kind ++ 0x3a :: tail)) (ports.length + 1 + kind.length) 0 =
        .ok (ports ++ 0 :: (kind ++ 0 :: tail)) := by
  refine ⟨?_, putByte_middle .., strchrIn_some hkind0 hkind (drop_middle ports _ 0 0), ?_⟩
  · rw [strchrIn_some hports0 hports rfl, Nat.zero_add]
  · have hmid := putByte_middle (ports ++ 0 :: kind) tail 0x3a 0
    rw [List.length_append, List.length_cons, Nat.add_comm kind.length 1, ← Nat.add_assoc,
      List.append_assoc, List.append_assoc] at hmid
    exact hmid

/-- Nor without a comma before the first one. -/
theorem getValidIdent_comma (tail : List UInt8) (hports0 : 0 ∉ ports) (hkind0 : 0 ∉ kind)
    (hports : 0x3a ∉ ports) (hkind : 0x3a ∉ kind) (hcomma : 0x2c ∉ ports) :
    ∃ buf, getValidIdent (ports ++ 0x3a :: (kind ++ 0x3a :: tail)) = .ok (none, buf) := by
  obtain ⟨hcolon1, hput1, hcolon2, hput2⟩ := colons_cut tail hports0 hkind0 hports hkind
  have hsearch : strchrIn 0x2c (ports ++ 0 :: (kind ++ 0 :: tail)) 0 = .ok none :=
    strchrIn_none (by decide) hports0 hcomma rfl
  simp only [getValidIdent, hcolon1, hput1, hcolon2, hput2, hsearch, bind, Except.bind]
  exact ⟨_, rfl⟩

theorem putByte_drop {mem pre post : List UInt8} {x : UInt8} {p : Nat}
    (hmem : mem.drop p = pre ++ x :: post) (y : UInt8) :
    ∃ mem', putByte mem (p + pre.length) y = .ok mem' ∧ mem'.drop (p + pre.length + 1) = post := by
  have hlt : p < mem.length := by
    have hlen := congrArg List.length hmem
    rw [List.length_drop, List.length_append, List.length_cons] at hlen
    omega
  have hpre : p + pre.length = (mem.take p ++ pre).length := by
    rw [List.length_append, List.length_take, Nat.min_eq_left hlt.le]
  have hput := putByte_middle (mem.take p ++ pre) post x y
  rw [List.append_assoc, ← hmem, List.take_append_drop] at hput
  rw [hpre]
  exact ⟨_, hput, drop_middle _ post y 0⟩

/-- The comma, and the strings in the buffer when it is cut everywhere. -/
theorem comma_cut (tail : List UInt8) (hremote0 : 0 ∉ remote) (hhere0 : 0 ∉ here)
    (hkind0 : 0 ∉ kind) (hcomma : 0x2c ∉ remote) {buf : List UInt8} {n : Nat}
    (hbuf : buf = remote ++ 0 :: (here ++ 0 :: (kind ++ 0 :: tail)))
    (hn : n = (remote ++ 0x2c :: here).length) :
    strchrIn 0x2c (remote ++ 0x2c :: here ++ 0 :: (kind ++ 0 :: tail)) 0 =
        .ok (some remote.length) ∧
      putByte (remote ++ 0x2c :: here ++ 0 :: (kind ++ 0 :: tail)) remote.length 0 = .ok buf ∧
      stringAt buf 0 = .ok remote ∧ stringAt buf (remote.length + 1) = .ok here ∧
      stringAt buf (n + 1) = .ok kind ∧ buf.drop (n + 1 + kind.length + 1) = tail := by
  have hlen : n = (remote ++ 0 :: here).length := by
    rw [hn, List.length_append, List.length_append, List.length_cons, List.length_cons]
  have hkind1 : n + 1 + kind.length = (remote ++ 0 :: here ++ 0 :: kind).length := by
    rw [hlen, @List.length_append _ (remote ++ 0 :: here), @List.length_cons _ _ kind]
    omega
  have hcut : buf = remote ++ 0 :: here ++ 0 :: (kind ++ 0 :: tail) := by
    rw [hbuf, List.append_assoc, List.cons_append]
  have hcut1 : buf = remote ++ 0 :: here ++ 0 :: kind ++ 0 :: tail := by
    rw [hcut, List.append_assoc (remote ++ 0 :: here), List.cons_append]
  refine ⟨?_, ?_, stringAt_eq hremote0 hbuf, ?_, ?_, ?_⟩
  · rw [List.append_assoc, List.cons_append, strchrIn_some hremote0 hcomma rfl, Nat.zero_add]
  · rw [List.append_assoc, List.cons_append, putByte_middle, hbuf]
  · rw [hbuf]
    exact stringAt_eq hhere0 (drop_middle remote _ 0 0)
  · rw [hcut, hlen]
    exact stringAt_eq hkind0 (drop_middle (remote ++ 0 :: here) _ 0 0)
  · rw [hkind1, hcut1]
    exact drop_middle (remote ++ 0 :: here ++ 0 :: kind) tail 0 0

/-- With both, the numbers and `USERID` decide, and the third colon. -/
theorem getValidIdent_ports (hports0 : 0 ∉ remote ++ 0x2c :: here) (hkind0 : 0 ∉ kind)
    (htail0 : 0 ∉ tail) (hports : 0x3a ∉ remote ++ 0x2c :: here) (hkind : 0x3a ∉ kind)
    (hcomma : 0x2c ∉ remote) :
    ∃ s buf, IdentHeard (remote ++ 0x2c :: here ++ 0x3a :: (kind ++ 0x3a :: tail)) rest s buf ∧
      getValidIdent (remote ++ 0x2c :: here ++ 0x3a :: (kind ++ 0x3a :: (tail ++ 0 :: rest))) =
        .ok (s, buf) := by
  obtain ⟨hremote0, hhere0⟩ : 0 ∉ remote ∧ 0 ∉ here :=
    ⟨fun h => hports0 (List.mem_append_left _ h),
      fun h => hports0 (List.mem_append_right remote (List.mem_cons_of_mem _ h))⟩
  obtain ⟨hcolon1, hput1, hcolon2, hput2⟩ :=
    colons_cut (tail ++ 0 :: rest) hports0 hkind0 hports hkind
  obtain ⟨hsearch, hput3, hfirst, hsecond, huserid, hdrop⟩ :=
    comma_cut (tail ++ 0 :: rest) hremote0 hhere0 hkind0 hcomma rfl rfl
  generalize (remote ++ 0x2c :: here).length = n at *
  generalize remote ++ 0 :: (here ++ 0 :: (kind ++ 0 :: (tail ++ 0 :: rest))) = buf at *
  simp only [getValidIdent, hcolon1, hput1, hcolon2, hput2, hsearch, hput3, hfirst, hsecond,
    huserid, bind, Except.bind]
  by_cases hfields : (atoi remote ≠ 0 ∧ atoi here ≠ 0) ∧ useridText <:+: kind ∧ 0x3a ∈ tail
  · obtain ⟨⟨hn1, hn2⟩, hid, hthree⟩ := hfields
    obtain ⟨system, name, rfl, hsystem⟩ := List.eq_append_cons_of_mem hthree
    have hfinds : ¬ ¬ strstrFinds kind useridText := not_not.mpr (decide_eq_true hid)
    have hmem : buf.drop (n + 1 + kind.length + 1) = system ++ 0x3a :: (name ++ 0 :: rest) := by
      rw [hdrop, List.append_assoc, List.cons_append]
    have hsystem0 : 0 ∉ system := fun h => htail0 (List.mem_append_left _ h)
    rw [if_neg hn1, if_neg hn2, if_neg hfinds, strchrIn_some hsystem0 hsystem hmem]
    obtain ⟨buf', hput4, hdrop'⟩ := putByte_drop hmem 0
    refine ⟨_, _, .name ⟨_, _, system, rfl, hports, hkind, hsystem,
      ⟨remote, here, rfl, hcomma, hn1, hn2⟩, hid⟩ hdrop', ?_⟩
    show Except.bind (putByte buf (n + 1 + kind.length + 1 + system.length) 0) _ = _
    rw [hput4]
    rfl
  · have hnone : ∀ name,
        ¬ IdentName (remote ++ 0x2c :: here ++ 0x3a :: (kind ++ 0x3a :: tail)) name := by
      intro name h
      obtain ⟨⟨remote', here', heq, hcomma', hnumbers⟩, hid, hthree⟩ :=
        identName_fields hports hkind h
      obtain ⟨rfl, rfl⟩ := cut_unique hcomma hcomma' heq
      exact hfields ⟨hnumbers, hid, hthree⟩
    refine ⟨none, buf, .nothing hnone, ?_⟩
    split
    · rfl
    · next hn1 =>
        split
        · rfl
        · next hn2 =>
            split
            · rfl
            · next hid =>
                have hthree : 0x3a ∉ tail := fun h =>
                  hfields ⟨⟨hn1, hn2⟩, of_decide_eq_true (not_not.mp hid), h⟩
                rw [strchrIn_none (by decide) htail0 hthree hdrop]

/-- The search stays in the buffer, and finds the name if there is one. -/
theorem getValidIdent_spec (rest : List UInt8) {text : List UInt8} (h0 : 0 ∉ text) :
    ∃ s buf, IdentHeard text rest s buf ∧ getValidIdent (text ++ 0 :: rest) = .ok (s, buf) := by
  by_cases htwo : ∃ ports kind tail,
      text = ports ++ 0x3a :: (kind ++ 0x3a :: tail) ∧ 0x3a ∉ ports ∧ 0x3a ∉ kind
  · obtain ⟨ports, kind, tail, rfl, hports, hkind⟩ := htwo
    have hports0 : 0 ∉ ports := fun h => h0 (List.mem_append_left _ h)
    have hkind0 : 0 ∉ kind := fun h =>
      h0 (List.mem_append_right ports (List.mem_cons_of_mem _ (List.mem_append_left _ h)))
    have htail0 : 0 ∉ tail := fun h =>
      h0 (List.mem_append_right ports (List.mem_cons_of_mem _
        (List.mem_append_right kind (List.mem_cons_of_mem _ h))))
    rw [List.append_assoc, List.cons_append, List.append_assoc, List.cons_append]
    by_cases hcomma : 0x2c ∈ ports
    · obtain ⟨remote, here, rfl, hremote⟩ := List.eq_append_cons_of_mem hcomma
      exact getValidIdent_ports hports0 hkind0 htail0 hports hkind hremote
    · obtain ⟨buf, hbuf⟩ := getValidIdent_comma (tail ++ 0 :: rest) hports0 hkind0 hports hkind
        hcomma
      refine ⟨none, buf, .nothing fun name h => ?_, hbuf⟩
      obtain ⟨⟨remote, here, rfl, -⟩, -⟩ := identName_fields hports hkind h
      exact hcomma (List.mem_append_right remote (List.mem_cons_self ..))
  · obtain ⟨buf, hbuf⟩ := getValidIdent_colons rest h0 htwo
    refine ⟨none, buf, .nothing ?_, hbuf⟩
    rintro name ⟨ports, kind, system, heq, hports, hkind, -⟩
    exact htwo ⟨ports, kind, _, heq, hports, hkind⟩

end Valid

/-! ## The copy -/

/-- What a user name can have. -/
def identByte (c : UInt8) : Bool := !isSpace c && c ≠ 0x3a && c ≠ 0x5b

/-- What is copied of a name: it ends at an `@`. -/
def identKept (s : List UInt8) : List UInt8 := (s.takeWhile (· ≠ 0x40)).filter identByte

theorem identKept_cons {c : UInt8} {s : List UInt8} (hat : c ≠ 0x40) :
    identKept (c :: s) = if identByte c then c :: identKept s else identKept s := by
  rw [identKept, List.takeWhile_cons_of_pos (p := fun d => decide (d ≠ 0x40)) (decide_eq_true hat),
    List.filter_cons]
  rfl

theorem mem_identKept {c : UInt8} {s : List UInt8} (h : c ∈ identKept s) :
    c ∈ s ∧ c ≠ 0x40 ∧ identByte c = true := by
  obtain ⟨hc, hbyte⟩ := List.mem_filter.mp h
  have hat := List.mem_takeWhile_imp (p := fun d : UInt8 => decide (d ≠ 0x40)) hc
  exact ⟨(List.takeWhile_prefix _).subset hc, of_decide_eq_true hat, hbyte⟩

theorem identByte_iff {c : UInt8} :
    identByte c = true ↔ ¬ isSpace c ∧ c ≠ 0x3a ∧ c ≠ 0x5b := by
  simp [identByte, and_assoc]

/-- The copy writes as much as it may behind what is there. -/
theorem copyIdent_spec {s : List UInt8} (h0 : 0 ∉ s) (rest : List UInt8) :
    ∀ {count : Nat} (pre : List UInt8) {post : List UInt8}, count ≤ post.length →
      ∃ post', copyIdent (s ++ 0 :: rest) count pre.length (pre ++ post) =
          .ok (pre.length + ((identKept s).take count).length,
            pre ++ (identKept s).take count ++ post') ∧
        ((identKept s).take count).length + post'.length = post.length := by
  induction s with
  | nil =>
      intro count pre post _
      refine ⟨post, ?_, by simp [identKept]⟩
      rw [List.nil_append, copyIdent, if_pos (.inl rfl)]
      simp [identKept]
  | cons c s ih =>
      intro count pre post hcount
      have hc : c ≠ 0 := fun h => h0 (h ▸ List.mem_cons_self ..)
      have hs : 0 ∉ s := fun h => h0 (List.mem_cons_of_mem c h)
      rw [List.cons_append, copyIdent]
      cases count with
      | zero =>
          refine ⟨post, ?_, by simp⟩
          rw [if_pos (.inr rfl), List.take_zero]
          simp
      | succ count =>
          have hmore : ¬ (c = 0 ∨ count + 1 = 0) := fun h => h.elim hc (Nat.succ_ne_zero count)
          rw [if_neg hmore]
          by_cases hat : c = 0x40
          · refine ⟨post, ?_, by simp [identKept, hat]⟩
            rw [if_pos hat]
            simp [identKept, hat]
          · rw [if_neg hat, identKept_cons hat]
            by_cases hbyte : identByte c
            · cases post with
              | nil => exact absurd hcount (by simp)
              | cons x post =>
                  obtain ⟨post', hcopy, hlen⟩ := ih hs (pre ++ [c])
                    (Nat.le_of_succ_le_succ hcount)
                  rw [List.length_append, List.length_singleton, List.append_assoc,
                    List.singleton_append] at hcopy
                  refine ⟨post', ?_, ?_⟩
                  · rw [if_pos (identByte_iff.mp hbyte), if_pos hbyte, putByte_middle,
                      List.take_succ_cons]
                    show copyIdent (s ++ 0 :: rest) count (pre.length + 1) (pre ++ c :: post) = _
                    rw [hcopy, List.length_cons, Nat.add_assoc, Nat.add_comm 1]
                    simp
                  · rw [if_pos hbyte, List.take_succ_cons, List.length_cons, List.length_cons]
                    omega
            · obtain ⟨post', hcopy, hlen⟩ := ih hs pre hcount
              refine ⟨post', ?_, ?_⟩
              · rw [if_neg (mt identByte_iff.mpr hbyte), if_neg hbyte]
                exact hcopy
              · rw [if_neg hbyte]
                exact hlen

/-! ## The user name -/

/-- Something of the name is copied. -/
def NameUsable (name : List UInt8) : Prop :=
  identKept (name.dropWhile fun c => c = 0x7e ∨ c = 0x5e) ≠ []

/-- A user name that can be used. -/
def UsableUsername (username : List UInt8) : Prop :=
  1 ≤ username.length ∧ username.length ≤ userLen ∧
    ∀ c ∈ username, ¬ isSpace c ∧ c ≠ 0x3a ∧ c ≠ 0x40 ∧ c ≠ 0x5b

/-- The reply is read in its buffers, and a client that has `SetGotId` after it has
such a name. -/
def IdentUsable (reply buf : List UInt8) (st : IdentSt) : Prop :=
  ∃ st', readAuthReply (.got reply) buf st = .ok st' ∧
    (st'.gotId = true → UsableUsername (cstr st'.username))

instance (name : List UInt8) : Decidable (NameUsable name) :=
  inferInstanceAs (Decidable (_ ≠ _))

theorem identKept_usable {s : List UInt8} (h : identKept s ≠ []) :
    UsableUsername ((identKept s).take userLen) := by
  refine ⟨?_, List.length_take_le .., fun c hc => ?_⟩
  · rw [List.length_take]
    have hpos := List.length_pos_of_ne_nil h
    have huser : userLen = 10 := rfl
    omega
  · obtain ⟨-, hat, hbyte⟩ := mem_identKept (List.mem_of_mem_take hc)
    obtain ⟨hspace, hcolon, hbracket⟩ := identByte_iff.mp hbyte
    exact ⟨hspace, hcolon, hat, hbracket⟩

section Username

variable {reply buf text rest username : List UInt8} {st : IdentSt}

theorem dropWhile_stop {p : UInt8 → Bool} (xs ys : List UInt8) (h0 : p 0 = false) :
    (xs ++ 0 :: ys).dropWhile p = xs.dropWhile p ++ 0 :: ys := by
  have hstop : (0 :: ys).dropWhile p = 0 :: ys := by
    rw [List.dropWhile_cons, if_neg (by rw [h0]; exact Bool.false_ne_true)]
  rw [List.dropWhile_append]
  split
  · next hnil => rw [hstop, List.isEmpty_iff.mp hnil, List.nil_append]
  · rfl

/-- The username that a name leaves. -/
theorem identUsername_spec (rest : List UInt8) (h0 : 0 ∉ text)
    (husername : username.length = userLen + 1) :
    ∃ valid after, identUsername (text ++ 0 :: rest) username = .ok (valid, after) ∧
      (valid = false → after = username ∧ ∀ name, ¬ IdentName text name) ∧
      (valid = true → ∃ name, IdentName text name ∧
        cstr after = (identKept (name.dropWhile fun c => c = 0x7e ∨ c = 0x5e)).take userLen) := by
  obtain ⟨s, buf, hheard, hrun⟩ := getValidIdent_spec rest h0
  cases hheard with
  | nothing hnone =>
      refine ⟨false, username, ?_, fun _ => ⟨rfl, hnone⟩, fun h => nomatch h⟩
      rw [identUsername, hrun]
      rfl
  | @name s buf name hname hbuf =>
      have hname0 : 0 ∉ name := by
        obtain ⟨ports, kind, system, rfl, -⟩ := hname
        intro hz
        simp only [List.mem_append, List.mem_cons] at h0
        exact h0 (.inr (.inr (.inr (.inr (.inr (.inr hz))))))
      have hskip := dropWhile_stop (p := fun c => c = 0x7e ∨ c = 0x5e) name rest (by decide)
      generalize hkept : name.dropWhile (fun c => c = 0x7e ∨ c = 0x5e) = kept at hskip
      have hkept0 : 0 ∉ kept := fun hz =>
        hname0 ((List.dropWhile_suffix _).subset (hkept ▸ hz))
      obtain ⟨post, hcopy, hlen⟩ := copyIdent_spec hkept0 rest []
        (Nat.le_of_succ_le husername.ge)
      cases post with
      | nil =>
          rw [husername, List.length_nil, Nat.add_zero] at hlen
          have hle := List.length_take_le userLen (identKept kept)
          omega
      | cons x post =>
          refine ⟨true, (identKept kept).take userLen ++ 0 :: post, ?_, (fun h => by cases h),
            fun _ => ⟨name, hname, ?_⟩⟩
          · rw [identUsername, hrun]
            show Except.bind (copyIdent ((buf.drop s).dropWhile fun c => c = 0x7e ∨ c = 0x5e)
              userLen 0 username) _ = _
            rw [List.nil_append, List.nil_append, List.length_nil, Nat.zero_add] at hcopy
            rw [hbuf, hskip, hcopy]
            show Except.bind (putByte _ _ 0) _ = _
            rw [putByte_middle]
            rfl
          · have hname0 : 0 ∉ (identKept kept).take userLen := fun hz =>
              hkept0 (mem_identKept (List.mem_of_mem_take hz)).1
            rw [hkept, cstr_terminated hname0]

/-- The buffer when the reply is in it and ends. -/
theorem received (hreply : reply.length ≤ authBufsiz) (hbuf : buf.length = authBufsiz + 1) :
    ∃ rest, putByte (blit buf 0 reply) reply.length 0 = .ok (cstr reply ++ 0 :: rest) := by
  have hlt : reply.length < buf.length := by omega
  have hblit : blit buf 0 reply = reply ++ buf[reply.length] :: buf.drop (reply.length + 1) := by
    rw [blit, List.take_zero, List.nil_append, Nat.zero_add, List.drop_eq_getElem_cons hlt]
  rw [hblit, putByte_middle]
  by_cases h0 : 0 ∈ reply
  · obtain ⟨text, rest, rfl, htext⟩ := List.eq_append_cons_of_mem h0
    rw [cstr_terminated htext, List.append_assoc]
    exact ⟨_, rfl⟩
  · rw [cstr_of_notMem h0]
    exact ⟨_, rfl⟩

/-- `"unknown"` is a user name. -/
theorem strcpyAt_unknown (husername : username.length = userLen + 1) :
    ∃ after, strcpyAt username 0 unknownText = .ok after ∧ UsableUsername (cstr after) := by
  have hcopy : strcpyAt ([] ++ username) 0 unknownText =
      .ok ([] ++ (unknownText ++ 0 :: username.drop (unknownText.length + 1))) :=
    @strcpyAt_middle [] _ _ (by rw [husername]; decide)
  refine ⟨_, hcopy, ?_⟩
  rw [List.nil_append, cstr_terminated (by decide)]
  have hall : unknownText.all (fun c =>
      decide (¬ isSpace c ∧ c ≠ 0x3a ∧ c ≠ 0x40 ∧ c ≠ 0x5b)) = true := by decide
  exact ⟨by decide, by decide, fun c hc => of_decide_eq_true (List.all_eq_true.mp hall c hc)⟩

/-- When the client is left with a name that can be used, or with none. -/
theorem identUsable_iff (hreply : reply.length ≤ authBufsiz) (hbuf : buf.length = authBufsiz + 1)
    (husername : st.username.length = userLen + 1) :
    IdentUsable reply buf st ↔ ∀ name, IdentName (cstr reply) name → NameUsable name := by
  obtain ⟨unknown, hcopy, hunknown⟩ := strcpyAt_unknown husername
  rw [IdentUsable, readAuthReply]
  by_cases hempty : 0 < reply.length
  · obtain ⟨rest, hput⟩ := received hreply hbuf
    obtain ⟨valid, after, hrun, hno, hyes⟩ :=
      identUsername_spec rest (zero_notMem_cstr reply) husername
    simp only [if_pos hempty, hput, hrun, bind, Except.bind]
    cases valid with
    | false =>
        obtain ⟨rfl, hnone⟩ := hno rfl
        simp only [hcopy]
        exact iff_of_true ⟨_, rfl, fun _ => hunknown⟩ fun name h => absurd h (hnone name)
    | true =>
        obtain ⟨name, hname, hafter⟩ := hyes rfl
        constructor
        · rintro ⟨st', hst', husable⟩ name' hname' hkept
          cases hst'
          obtain rfl := identName_unique hname hname'
          have hpos := (husable rfl).1
          rw [hafter, hkept] at hpos
          exact absurd hpos (by decide)
        · exact fun h => ⟨_, rfl, fun _ => hafter ▸ identKept_usable (h name hname)⟩
  · have hnil : reply = [] := List.length_eq_zero_iff.mp (by omega)
    simp only [if_neg hempty, hcopy, bind, Except.bind]
    refine iff_of_true ⟨_, rfl, fun _ => hunknown⟩ fun name h => ?_
    obtain ⟨ports, kind, system, heq, -⟩ := h
    rw [hnil] at heq
    cases ports with
    | nil => cases heq
    | cons c ports => cases heq

end Username

/-- `1,2:USERID:UNIX:~ab` in a buffer of zeros. -/
theorem identUsable_ab : IdentUsable
    [0x31, 0x2c, 0x32, 0x3a, 0x55, 0x53, 0x45, 0x52, 0x49, 0x44, 0x3a, 0x55, 0x4e, 0x49, 0x58,
      0x3a, 0x7e, 0x61, 0x62] (List.replicate 129 0) ⟨List.replicate 11 0, false, 0, 0⟩ := by
  refine (identUsable_iff (by decide) List.length_replicate (by decide)).mpr fun name hname => ?_
  have hab : IdentName (cstr [0x31, 0x2c, 0x32, 0x3a, 0x55, 0x53, 0x45, 0x52, 0x49, 0x44, 0x3a,
      0x55, 0x4e, 0x49, 0x58, 0x3a, 0x7e, 0x61, 0x62]) [0x7e, 0x61, 0x62] :=
    ⟨[0x31, 0x2c, 0x32], useridText, [0x55, 0x4e, 0x49, 0x58], by decide, by decide, by decide,
      by decide, ⟨[0x31], [0x32], by decide, by decide, by decide, by decide⟩, by decide⟩
  rw [identName_unique hname hab]
  decide

/-- A reply whose name is only the line end: the client gets an empty user name. -/
theorem ident_empty : ¬ IdentUsable
    [0x31, 0x2c, 0x32, 0x3a, 0x55, 0x53, 0x45, 0x52, 0x49, 0x44, 0x3a, 0x55, 0x4e, 0x49, 0x58,
      0x3a, 0x0d, 0x0a] (List.replicate 129 0) ⟨List.replicate 11 0, false, 0, 0⟩ := by
  rintro ⟨st', hst', husable⟩
  have hrun : readAuthReply (.got [0x31, 0x2c, 0x32, 0x3a, 0x55, 0x53, 0x45, 0x52, 0x49, 0x44, 0x3a,
      0x55, 0x4e, 0x49, 0x58, 0x3a, 0x0d, 0x0a]) (List.replicate 129 0)
      ⟨List.replicate 11 0, false, 0, 0⟩ = .ok ⟨List.replicate 11 0, true, 0, 1⟩ := by
    decide +kernel
  cases hrun.symm.trans hst'
  exact absurd (husable rfl).1 (by decide)

end TrIrcd
