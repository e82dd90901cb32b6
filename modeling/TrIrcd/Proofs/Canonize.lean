import TrIrcd.Lib.Firsts
import TrIrcd.Lib.Words
import TrIrcd.Src.Textedit

/-!
# `canonize` keeps the first of what is the same

While an item is looked for, a NUL stands in `cbuf` behind the item it is
compared with, and a comma again before the next one is read: so `cbuf` is as it
was when the search is over (`canonizeFind_spec`). The place where a new item is
put is one behind the NUL of those that are kept, whatever separators the text
has, since only the length of the item and one byte more are counted. And what is
kept takes no more room than what has been read (`canonizeLoop_spec`).
-/

namespace TrIrcd

open TrIrcd.Lib

/-! ## Memory -/

/-- Nothing but commas has changed, and these to NUL. -/
def OnlyCut (mem mem' : List UInt8) : Prop :=
  ∀ i : Nat, mem'[i]? = mem[i]? ∨ mem[i]? = some 0x2c ∧ mem'[i]? = some 0

theorem OnlyCut.refl (mem : List UInt8) : OnlyCut mem mem := fun _ => .inl rfl

theorem OnlyCut.trans {a b c : List UInt8} (hab : OnlyCut a b) (hbc : OnlyCut b c) :
    OnlyCut a c := by
  intro i
  rcases hab i with hab | ⟨ha, hb⟩
  · rw [← hab]
    exact hbc i
  · rcases hbc i with hbc | ⟨hcomma, _⟩
    · exact .inr ⟨ha, hbc.trans hb⟩
    · cases hb.symm.trans hcomma

theorem onlyCut_set {mem : List UInt8} {i : Nat} (h : mem[i]? = some 0x2c) :
    OnlyCut mem (mem.set i 0) := by
  intro j
  by_cases hij : i = j
  · subst hij
    have hlt : i < mem.length := (List.getElem?_eq_some_iff.mp h).1
    exact .inr ⟨h, List.getElem?_set_self hlt⟩
  · exact .inl (List.getElem?_set_ne hij)

/-! ## Tokens -/

/-- An item has neither NUL nor comma in it. -/
structure IsItem (w : List UInt8) : Prop where
  ne_nil : w ≠ []
  bytes : ∀ c ∈ w, c ≠ 0 ∧ c ≠ 0x2c

section Token

variable {mem seps w after : List UInt8} {save str : Option Nat} {pos : Nat}

theorem strtoken_none (h : str.or save = none) : strtoken comma mem save str = .ok ⟨none, none, mem⟩ := by
  rw [strtoken, h]

theorem isSeparator_iff (c : UInt8) : decide (c ≠ 0 ∧ c ∈ comma) = true ↔ c = 0x2c := by
  rw [decide_eq_true_iff, comma, List.mem_singleton]
  exact ⟨And.right, fun h => ⟨by rw [h]; decide, h⟩⟩

theorem isLetter_iff (c : UInt8) : decide (c ≠ 0 ∧ c ∉ comma) = true ↔ c ≠ 0 ∧ c ≠ 0x2c := by
  rw [decide_eq_true_iff, comma, List.mem_singleton]

/-- The separators in front of a token. -/
theorem skip_separators {c : UInt8} (hmem : mem.drop pos = seps ++ c :: after)
    (hseps : ∀ c ∈ seps, c = 0x2c) (hc : c ≠ 0x2c) :
    ((mem.drop pos).takeWhile fun c => c ≠ 0 ∧ c ∈ comma) = seps := by
  rw [hmem]
  refine takeWhile_stop (fun x hx => (isSeparator_iff x).mpr (hseps x hx)) ?_
  rw [Bool.eq_false_iff]
  exact fun h => hc ((isSeparator_iff c).mp h)

/-- There is no token left. -/
theorem strtoken_end (h : str.or save = some pos) (hmem : mem.drop pos = seps ++ 0 :: after)
    (hseps : ∀ c ∈ seps, c = 0x2c) : strtoken comma mem save str = .ok ⟨none, none, mem⟩ := by
  rw [strtoken, h]
  simp only [skip_separators hmem hseps (by decide), getElem?_drop_append hmem, if_true]

/-- A token, and the byte behind it. -/
theorem strtoken_word {d : UInt8} (h : str.or save = some pos)
    (hmem : mem.drop pos = seps ++ (w ++ d :: after)) (hseps : ∀ c ∈ seps, c = 0x2c)
    (hw : IsItem w) (hd : d = 0 ∨ d = 0x2c) :
    strtoken comma mem save str = .ok (if d = 0 then ⟨some (pos + seps.length), none, mem⟩
      else ⟨some (pos + seps.length), some (pos + seps.length + w.length + 1),
        mem.set (pos + seps.length + w.length) 0⟩) := by
  obtain ⟨c, w', rfl⟩ := List.exists_cons_of_ne_nil hw.ne_nil
  obtain ⟨hc, hcomma⟩ := hw.bytes c (List.mem_cons_self ..)
  have hmem' : mem.drop (pos + seps.length) = c :: w' ++ d :: after := by
    rw [← List.drop_drop, hmem, List.drop_left]
  have hstop : ((mem.drop (pos + seps.length)).takeWhile fun c => c ≠ 0 ∧ c ∉ comma) = c :: w' := by
    rw [hmem']
    refine takeWhile_stop (fun x hx => (isLetter_iff x).mpr (hw.bytes x hx)) ?_
    rw [Bool.eq_false_iff]
    intro h
    obtain ⟨hzero, hletter⟩ := (isLetter_iff d).mp h
    exact hd.elim hzero hletter
  rw [strtoken, h]
  simp only [skip_separators hmem hseps hcomma, getElem?_drop_append hmem, hc, if_false, hstop,
    getElem?_drop_append hmem']
  split
  · rfl
  · rfl

end Token

/-! ## Items in `cbuf` -/

/-- Items with a comma between two of them. -/
def joinItems (ws : List (List UInt8)) : List UInt8 := [0x2c].intercalate ws

theorem joinItems_cons_cons (w w' : List UInt8) (ws : List (List UInt8)) :
    joinItems (w :: w' :: ws) = w ++ 0x2c :: joinItems (w' :: ws) := by
  rw [joinItems, List.intercalate_cons_cons, List.append_assoc]
  rfl

def sameItem (s w : List UInt8) : Bool := ircStrcmp s w = 0

theorem cstr_item {w : List UInt8} (hw : IsItem w) (after : List UInt8) :
    cstr (w ++ 0 :: after) = w :=
  cstr_terminated (fun h => (hw.bytes 0 h).1 rfl) after

section Find

variable {s cbuf : List UInt8} {fuel : Nat} {p2 str : Option Nat} {t : StrToken}

theorem canonizeFind_none (ht : strtoken comma cbuf p2 str = .ok t) (htmp : t.tmp = none) :
    canonizeFind s (fuel + 1) p2 str cbuf = .ok t := by
  rw [canonizeFind, ht]
  simp only [bind, Except.bind, htmp]

theorem canonizeFind_some {tmp : Nat} (ht : strtoken comma cbuf p2 str = .ok t)
    (htmp : t.tmp = some tmp) :
    canonizeFind s (fuel + 1) p2 str cbuf =
      if sameItem s (cstr (t.mem.drop tmp)) = true then .ok t
      else t.patch.bind (canonizeFind s fuel t.save none) := by
  rw [canonizeFind, ht, sameItem]
  simp only [bind, Except.bind, htmp, decide_eq_true_eq]

/-- The outcome of a search: whether there is an item that is the same, and
`cbuf` as it was. -/
structure Searched (s : List UInt8) (ws : List (List UInt8)) (cbuf : List UInt8)
    (t : StrToken) : Prop where
  found : t.tmp.isSome = ws.any (sameItem s)
  missed : t.tmp = none → t.mem = cbuf
  hit : t.tmp.isSome = true → t.patch = .ok cbuf

/-- The search through the items in `cbuf` from a place on. -/
theorem canonizeFind_spec {ws : List (List UInt8)} :
    ∀ {w pre junk : List UInt8} {fuel : Nat} {p2 str : Option Nat}, (∀ v ∈ w :: ws, IsItem v) →
      (w :: ws).length < fuel → str.or p2 = some pre.length →
      ∃ t, canonizeFind s fuel p2 str (pre ++ (joinItems (w :: ws) ++ 0 :: junk)) = .ok t ∧
        Searched s (w :: ws) (pre ++ (joinItems (w :: ws) ++ 0 :: junk)) t := by
  have hnil : ∀ c ∈ ([] : List UInt8), c = 0x2c := fun _ h => absurd h List.not_mem_nil
  induction ws with
  | nil =>
      intro w pre junk fuel p2 str hws hfuel hpos
      have hw := hws w (List.mem_cons_self ..)
      obtain ⟨fuel, rfl⟩ : ∃ n, fuel = n + 2 := Nat.exists_eq_add_of_le' hfuel
      have hjoin : joinItems [w] = w := List.intercalate_singleton
      rw [hjoin]
      have hmem : (pre ++ (w ++ 0 :: junk)).drop pre.length = w ++ 0 :: junk := List.drop_left
      have htoken := strtoken_word hpos hmem hnil hw (.inl rfl)
      rw [if_pos rfl, List.length_nil, Nat.add_zero] at htoken
      rw [canonizeFind_some htoken rfl, hmem, cstr_item hw]
      cases hsame : sameItem s w with
      | true =>
          refine ⟨_, if_pos rfl, ?_, fun h => (by cases h), fun _ => rfl⟩
          rw [List.any_cons, hsame]
          rfl
      | false =>
          refine ⟨⟨none, none, pre ++ (w ++ 0 :: junk)⟩, ?_, ?_, fun _ => rfl, fun h => by cases h⟩
          · rw [if_neg Bool.false_ne_true]
            exact canonizeFind_none (strtoken_none rfl) rfl
          · rw [List.any_cons, hsame]
            rfl
  | cons w' ws ih =>
      intro w pre junk fuel p2 str hws hfuel hpos
      have hw := hws w (List.mem_cons_self ..)
      obtain ⟨fuel, rfl⟩ : ∃ n, fuel = n + 1 := Nat.exists_eq_add_of_le' (Nat.one_le_of_lt hfuel)
      rw [joinItems_cons_cons]
      -- The memory, before and after the cut.
      have hall (c : UInt8) : pre ++ (w ++ c :: joinItems (w' :: ws) ++ 0 :: junk) =
          pre ++ w ++ c :: (joinItems (w' :: ws) ++ 0 :: junk) := by
        simp only [List.append_assoc, List.cons_append]
      have hdrop (c : UInt8) : (pre ++ w ++ c :: (joinItems (w' :: ws) ++ 0 :: junk)).drop
          pre.length = w ++ c :: (joinItems (w' :: ws) ++ 0 :: junk) := by
        rw [List.append_assoc, List.drop_left]
      have hlen : pre.length + w.length = (pre ++ w).length := List.length_append.symm
      have htoken := strtoken_word hpos (hdrop 0x2c) hnil hw (.inr rfl)
      rw [if_neg (by decide), List.length_nil, Nat.add_zero, hlen, set_middle] at htoken
      have hpatch : StrToken.patch ⟨some pre.length, some ((pre ++ w).length + 1),
          pre ++ w ++ 0 :: (joinItems (w' :: ws) ++ 0 :: junk)⟩ =
          .ok (pre ++ w ++ 0x2c :: (joinItems (w' :: ws) ++ 0 :: junk)) := putByte_middle ..
      rw [hall, canonizeFind_some htoken rfl, hdrop, cstr_item hw]
      cases hsame : sameItem s w with
      | true =>
          refine ⟨_, if_pos rfl, ?_, fun h => (by cases h), fun _ => hpatch⟩
          rw [List.any_cons, hsame]
          rfl
      | false =>
          have hnext : pre ++ w ++ 0x2c :: (joinItems (w' :: ws) ++ 0 :: junk) =
              pre ++ w ++ [0x2c] ++ (joinItems (w' :: ws) ++ 0 :: junk) := List.append_cons ..
          have hplace : (none : Option Nat).or (some ((pre ++ w).length + 1)) =
              some (pre ++ w ++ [0x2c]).length := by
            have hone : (pre ++ w ++ [0x2c]).length = (pre ++ w).length + 1 := List.length_append
            rw [hone]
            rfl
          obtain ⟨t, ht, hsearched⟩ := ih (fun v hv => hws v (List.mem_cons_of_mem w hv))
            (Nat.lt_of_succ_lt_succ hfuel) hplace
          rw [← hnext] at ht hsearched
          refine ⟨t, ?_, ?_, hsearched.missed, hsearched.hit⟩
          · rw [if_neg Bool.false_ne_true, hpatch]
            exact ht
          · show t.tmp.isSome = (sameItem s w || (w' :: ws).any (sameItem s))
            rw [hsearched.found, hsame, Bool.false_or]

end Find

/-! ## Items put to the end -/

theorem sameItem_trans {x y z : List UInt8} (hxy : sameItem x y = true) (hyz : sameItem y z = true) :
    sameItem x z = true := by
  simp only [sameItem, decide_eq_true_iff, ircStrcmp_eq_zero_iff] at hxy hyz ⊢
  exact hyz.trans hxy

theorem length_le_joinItems {ws : List (List UInt8)} (hws : ∀ w ∈ ws, IsItem w) :
    ws.length ≤ (joinItems ws).length := by
  induction ws with
  | nil => exact Nat.le_refl 0
  | cons w ws ih =>
      have hw : 0 < w.length := List.length_pos_iff.mpr (hws w (List.mem_cons_self ..)).ne_nil
      cases ws with
      | nil =>
          have hjoin : joinItems [w] = w := List.intercalate_singleton
          rw [hjoin]
          exact hw
      | cons w' ws =>
          have hrest := ih fun v hv => hws v (List.mem_cons_of_mem w hv)
          rw [joinItems_cons_cons, List.length_append]
          simp only [List.length_cons] at hrest ⊢
          omega

/-- The items that are kept are in `cbuf`, with a NUL behind them. -/
structure Keeps (ks : List (List UInt8)) (st : CanonizeSt) : Prop where
  items : ∀ k ∈ ks, IsItem k
  l : st.l = !ks.isEmpty
  cbuf : ∃ junk, st.cbuf = joinItems ks ++ 0 :: junk

/-- Where the next item is put. -/
def cpOf (ks : List (List UInt8)) : Nat := if ks = [] then 0 else (joinItems ks).length + 1

theorem joinItems_concat {ks : List (List UInt8)} (hks : ks ≠ []) (w : List UInt8) :
    joinItems (ks ++ [w]) = joinItems ks ++ 0x2c :: w := intercalate_concat hks

section Item

variable {ks : List (List UInt8)} {st : CanonizeSt} {s : Nat} {w : List UInt8}

/-- `cbuf` and `cp` when an item has been put to the end. -/
def CanonizeSt.put (st : CanonizeSt) (s : Nat) (cbuf : List UInt8) : CanonizeSt :=
  { st with
    cbuf := cbuf
    cp := match st.p with
      | none => st.cp
      | some p => st.cp + (p - s)
    l := true }

theorem item_first (hl : st.l = false) :
    st.item s = (strcpyAt st.cbuf st.cp (cstr (st.buffer.drop s))).map (st.put s) := by
  rw [CanonizeSt.item, hl]
  show (Except.bind (strcpyAt st.cbuf st.cp _) _) = _
  cases strcpyAt st.cbuf st.cp (cstr (st.buffer.drop s)) with
  | error e => rfl
  | ok cbuf => rfl

theorem item_new {t : StrToken} (hl : st.l = true)
    (ht : canonizeFind (cstr (st.buffer.drop s)) (st.cbuf.length + 1) none (some 0) st.cbuf = .ok t)
    (htmp : t.tmp = none) :
    st.item s = (putByte t.mem (st.cp - 1) 0x2c).bind fun cbuf =>
      (strcpyAt cbuf st.cp (cstr (st.buffer.drop s))).map (st.put s) := by
  rw [CanonizeSt.item]
  simp only [hl, if_true, ht]
  show (match t.tmp with | none => _ | some tmp => _) = _
  rw [htmp]
  cases putByte t.mem (st.cp - 1) 0x2c with
  | error e => rfl
  | ok cbuf =>
      show Except.bind (strcpyAt cbuf st.cp _) _ = Except.map _ (strcpyAt cbuf st.cp _)
      cases strcpyAt cbuf st.cp (cstr (st.buffer.drop s)) with
      | error e => rfl
      | ok cbuf => rfl

theorem item_old {t : StrToken} {tmp : Nat} (hl : st.l = true)
    (ht : canonizeFind (cstr (st.buffer.drop s)) (st.cbuf.length + 1) none (some 0) st.cbuf = .ok t)
    (htmp : t.tmp = some tmp) :
    st.item s = t.patch.map fun cbuf => { st with cbuf := cbuf } := by
  rw [CanonizeSt.item]
  simp only [hl, if_true, ht]
  show (match t.tmp with | none => _ | some tmp => _) = _
  rw [htmp]
  cases t.patch with
  | error e => rfl
  | ok cbuf => rfl

theorem cpOf_concat (ks : List (List UInt8)) (w : List UInt8) :
    cpOf (ks ++ [w]) = cpOf ks + w.length + 1 := by
  have hne : ks ++ [w] ≠ [] := List.append_ne_nil_of_right_ne_nil ks (List.cons_ne_nil w [])
  rw [cpOf, cpOf, if_neg hne]
  by_cases hks : ks = []
  · subst hks
    have hjoin : joinItems [w] = w := List.intercalate_singleton
    rw [if_pos rfl, List.nil_append, hjoin, Nat.zero_add]
  · rw [if_neg hks, joinItems_concat hks, List.length_append, List.length_cons]
    omega

/-- What one item does: it is kept if it is the same as none that is. -/
structure ItemDone (ks : List (List UInt8)) (w : List UInt8) (s : Nat)
    (st st' : CanonizeSt) : Prop where
  keeps : Keeps (keepNew sameItem ks w) st'
  buffer : st'.buffer = st.buffer
  p : st'.p = st.p
  length : st'.cbuf.length = st.cbuf.length
  cp : ∀ p, st.p = some p → p = s + w.length + 1 → st'.cp = cpOf (keepNew sameItem ks w)

theorem put_done {cbuf : List UInt8} (hitems : ∀ k ∈ ks, IsItem k) (hcp : st.cp = cpOf ks)
    (hw : IsItem w) (hnew : ks.any (sameItem w) = false)
    (hcbuf : ∃ junk, cbuf = joinItems (ks ++ [w]) ++ 0 :: junk) (hlen : cbuf.length = st.cbuf.length) :
    ItemDone ks w s st (st.put s cbuf) := by
  have hkept : keepNew sameItem ks w = ks ++ [w] := by
    rw [keepNew, hnew, if_neg Bool.false_ne_true]
  refine ⟨?_, rfl, rfl, hlen, ?_⟩
  · rw [hkept]
    refine ⟨?_, ?_, hcbuf⟩
    · intro k hk
      rcases List.mem_append.mp hk with hk | hk
      · exact hitems k hk
      · rw [List.mem_singleton.mp hk]
        exact hw
    · have hne : ks ++ [w] ≠ [] := List.append_ne_nil_of_right_ne_nil ks (List.cons_ne_nil w [])
      rw [List.isEmpty_eq_false_iff.mpr hne]
      rfl
  · intro p hp hend
    rw [hkept, cpOf_concat, ← hcp, CanonizeSt.put, hp]
    show st.cp + (p - s) = st.cp + w.length + 1
    omega

theorem item_done (hkeeps : Keeps ks st) (hcp : st.cp = cpOf ks) (hw : IsItem w)
    (hat : cstr (st.buffer.drop s) = w) (hroom : cpOf ks + w.length < st.cbuf.length) :
    ∃ st', st.item s = .ok st' ∧ ItemDone ks w s st st' := by
  obtain ⟨hitems, hl, junk, hcbuf⟩ := hkeeps
  by_cases hks : ks = []
  · subst hks
    have hroom' : w.length + 1 ≤ st.cbuf.length := by
      rw [cpOf, if_pos rfl, Nat.zero_add] at hroom
      exact hroom
    have hcopy : strcpyAt st.cbuf st.cp w = .ok (w ++ 0 :: st.cbuf.drop (w.length + 1)) := by
      rw [hcp]
      show strcpyAt ([] ++ st.cbuf) ([] : List UInt8).length w = _
      exact strcpyAt_middle hroom'
    have hjoin : joinItems [w] = w := List.intercalate_singleton
    rw [item_first hl, hat, hcopy]
    refine ⟨_, rfl, put_done hitems hcp hw rfl ⟨st.cbuf.drop (w.length + 1), ?_⟩ ?_⟩
    · rw [List.nil_append, hjoin]
    · rw [List.length_append, List.length_cons, List.length_drop]
      omega
  · have hl' : st.l = true := by
      rw [hl, List.isEmpty_eq_false_iff.mpr hks]
      rfl
    obtain ⟨k, ks', rfl⟩ := List.exists_cons_of_ne_nil hks
    have hfuel : (k :: ks').length < st.cbuf.length + 1 := by
      have := length_le_joinItems hitems
      rw [hcbuf, List.length_append]
      omega
    have hstart : (some 0).or none = some ([] : List UInt8).length := rfl
    have hfind : ∃ t, canonizeFind w (st.cbuf.length + 1) none (some 0)
        ([] ++ (joinItems (k :: ks') ++ 0 :: junk)) = .ok t ∧ _ :=
      canonizeFind_spec hitems hfuel hstart
    rw [List.nil_append, ← hcbuf] at hfind
    obtain ⟨t, ht, hsearched⟩ := hfind
    cases htmp : t.tmp with
    | none =>
        have hnew : (k :: ks').any (sameItem w) = false := by
          rw [← hsearched.found, htmp]
          rfl
        have hcp' : st.cp = (joinItems (k :: ks')).length + 1 := by rw [hcp, cpOf, if_neg hks]
        have hput : putByte t.mem (st.cp - 1) 0x2c = .ok (joinItems (k :: ks') ++ 0x2c :: junk) := by
          rw [hsearched.missed htmp, hcp', Nat.add_sub_cancel]
          rw [hcbuf]
          exact putByte_middle ..
        rw [cpOf, if_neg hks, hcbuf, List.length_append, List.length_cons] at hroom
        have hplace : (joinItems (k :: ks') ++ [0x2c]).length = st.cp := by
          rw [hcp', List.length_append, List.length_singleton]
        have hcopy : strcpyAt (joinItems (k :: ks') ++ 0x2c :: junk) st.cp w =
            .ok (joinItems (k :: ks') ++ [0x2c] ++ (w ++ 0 :: junk.drop (w.length + 1))) := by
          rw [List.append_cons, ← hplace]
          exact strcpyAt_middle (by omega)
        rw [item_new hl' (hat.symm ▸ ht) htmp, hput, hat]
        show ∃ st', (strcpyAt (joinItems (k :: ks') ++ 0x2c :: junk) st.cp w).map _ = .ok st' ∧ _
        rw [hcopy]
        refine ⟨_, rfl, put_done hitems hcp hw hnew ⟨junk.drop (w.length + 1), ?_⟩ ?_⟩
        · rw [joinItems_concat hks]
          simp only [List.append_assoc, List.cons_append, List.nil_append]
        · rw [hcbuf]
          simp only [List.length_append, List.length_cons, List.length_drop, List.length_nil]
          omega
    | some tmp =>
        have hfound : t.tmp.isSome = true := by rw [htmp]; rfl
        have hold : (k :: ks').any (sameItem w) = true := hsearched.found.symm.trans hfound
        have hkept : keepNew sameItem (k :: ks') w = k :: ks' := by rw [keepNew, hold, if_pos rfl]
        rw [item_old hl' (hat.symm ▸ ht) htmp, hsearched.hit hfound]
        refine ⟨_, rfl, ?_, rfl, rfl, rfl, fun _ _ _ => ?_⟩
        · rw [hkept]
          exact ⟨hitems, hl, junk, hcbuf⟩
        · rw [hkept]
          exact hcp

end Item

/-! ## Items of a text -/

def isComma (c : UInt8) : Bool := c = 0x2c

/-- The items that are not empty. -/
def itemsOf (text : List UInt8) : List (List UInt8) := words isComma text

theorem itemsOf_skip {seps : List UInt8} (hseps : ∀ c ∈ seps, c = 0x2c) (p : List UInt8) :
    itemsOf (seps ++ p) = itemsOf p := by
  induction seps with
  | nil => rfl
  | cons c seps ih =>
      have hc : isComma c = true := decide_eq_true (hseps c (List.mem_cons_self ..))
      have hcons := words_append_cons [] (seps ++ p) hc
      rw [words_nil, List.nil_append, List.nil_append] at hcons
      exact hcons.trans (ih fun d hd => hseps d (List.mem_cons_of_mem c hd))

/-- How a text begins: with separators, and a token behind them if there is one. -/
theorem itemsOf_cases {p : List UInt8} (h0 : 0 ∉ p) : ∃ seps : List UInt8, (∀ c ∈ seps, c = 0x2c) ∧
    (p = seps ∧ itemsOf p = [] ∨
      (∃ w, IsItem w ∧ p = seps ++ w ∧ itemsOf p = [w]) ∨
        ∃ w p', IsItem w ∧ p = seps ++ (w ++ 0x2c :: p') ∧ itemsOf p = w :: itemsOf p') := by
  have hseps : ∀ c ∈ p.takeWhile isComma, c = 0x2c := by
    intro c hc
    have hcomma : isComma c = true := List.mem_takeWhile_imp hc
    exact of_decide_eq_true hcomma
  have hsplit := List.takeWhile_append_dropWhile (p := isComma) (l := p)
  refine ⟨p.takeWhile isComma, hseps, ?_⟩
  generalize p.takeWhile isComma = seps at hseps hsplit ⊢
  have hhead := List.head?_dropWhile_not isComma p
  generalize p.dropWhile isComma = q at hsplit hhead
  subst hsplit
  cases q with
  | nil =>
      refine .inl ⟨List.append_nil seps, ?_⟩
      rw [itemsOf_skip hseps]
      exact words_nil
  | cons c q =>
      have hc : isComma c = false := by simpa using hhead
      have hw : ∀ d ∈ (c :: q).takeWhile fun c => !isComma c, isComma d = false :=
        fun d hd => by simpa using List.mem_takeWhile_imp hd
      have hne : ((c :: q).takeWhile fun c => !isComma c) ≠ [] := by
        rw [List.takeWhile_cons_of_pos (by rw [hc]; rfl)]
        exact List.cons_ne_nil _ _
      have hsplit := List.takeWhile_append_dropWhile (p := fun c => !isComma c) (l := c :: q)
      have hstop := List.head?_dropWhile_not (fun c => !isComma c) (c :: q)
      generalize ((c :: q).takeWhile fun c => !isComma c) = w at hw hne hsplit
      generalize ((c :: q).dropWhile fun c => !isComma c) = r at hsplit hstop
      rw [← hsplit] at h0 ⊢
      have hitem : IsItem w := by
        refine ⟨hne, fun d hd => ⟨?_, of_decide_eq_false (hw d hd)⟩⟩
        rintro rfl
        exact h0 (List.mem_append_right seps (List.mem_append_left r hd))
      rw [itemsOf_skip hseps]
      cases r with
      | nil =>
          refine .inr (.inl ⟨w, hitem, by rw [List.append_nil], ?_⟩)
          rw [List.append_nil]
          exact words_of_text hne hw
      | cons d r =>
          have hd : isComma d = true := by simpa using hstop
          obtain rfl : d = 0x2c := of_decide_eq_true hd
          refine .inr (.inr ⟨w, r, hitem, rfl, ?_⟩)
          rw [itemsOf, words_append_cons w r hd, words_of_text hne hw]
          rfl

/-! ## The whole text -/

section Loop

variable {st : CanonizeSt} {fuel : Nat} {str : Option Nat} {t : StrToken}

/-- What `strtoken` has written. -/
def CanonizeSt.after (st : CanonizeSt) (t : StrToken) : CanonizeSt :=
  { st with buffer := t.mem, p := t.save }

theorem canonizeLoop_none (ht : strtoken comma st.buffer st.p str = .ok t) (htmp : t.tmp = none) :
    canonizeLoop (fuel + 1) str st = .ok (st.after t) := by
  rw [canonizeLoop, ht]
  show (match t.tmp with | none => _ | some s => _) = _
  rw [htmp]
  rfl

theorem canonizeLoop_some {s : Nat} (ht : strtoken comma st.buffer st.p str = .ok t)
    (htmp : t.tmp = some s) :
    canonizeLoop (fuel + 1) str st = ((st.after t).item s).bind (canonizeLoop fuel none) := by
  rw [canonizeLoop, ht]
  show (match t.tmp with | none => _ | some s => _) = _
  rw [htmp]
  rfl

theorem Keeps.after {ks : List (List UInt8)} (h : Keeps ks st) (t : StrToken) :
    Keeps ks (st.after t) := ⟨h.items, h.l, h.cbuf⟩

theorem cpOf_keepNew_le (ks : List (List UInt8)) (w : List UInt8) :
    cpOf (keepNew sameItem ks w) ≤ cpOf ks + w.length + 1 := by
  rw [keepNew]
  split
  · omega
  · exact Nat.le_of_eq (cpOf_concat ks w)

/-- The items of what is left of the text. -/
theorem canonizeLoop_spec (fuel : Nat) :
    ∀ {st : CanonizeSt} {str : Option Nat} {pos : Nat} {ks : List (List UInt8)}
      {p after : List UInt8}, str.or st.p = some pos → st.buffer.drop pos = p ++ 0 :: after →
      0 ∉ p → Keeps ks st → st.cp = cpOf ks → cpOf ks + p.length < st.cbuf.length →
      p.length < fuel →
      ∃ st', canonizeLoop fuel str st = .ok st' ∧
        Keeps ((itemsOf p).foldl (keepNew sameItem) ks) st' ∧
        st'.cbuf.length = st.cbuf.length ∧ OnlyCut st.buffer st'.buffer := by
  induction fuel with
  | zero => exact fun _ _ _ _ _ _ h => absurd h (Nat.not_lt_zero _)
  | succ fuel ih =>
      intro st str pos ks p after hpos hmem h0 hkeeps hcp hroom hfuel
      obtain ⟨seps, hseps, ⟨rfl, hitems⟩ | ⟨w, hw, rfl, hitems⟩ | ⟨w, p', hw, rfl, hitems⟩⟩ :=
        itemsOf_cases h0
      · rw [hitems]
        exact ⟨_, canonizeLoop_none (strtoken_end hpos hmem hseps) rfl, hkeeps.after _, rfl,
          OnlyCut.refl _⟩
      · rw [List.append_assoc] at hmem
        have ht := strtoken_word hpos hmem hseps hw (.inl rfl)
        rw [if_pos rfl] at ht
        rw [List.length_append] at hroom hfuel
        have hwpos : 0 < w.length := List.length_pos_iff.mpr hw.ne_nil
        have hat : cstr (st.buffer.drop (pos + seps.length)) = w := by
          rw [← List.drop_drop, hmem, List.drop_left, cstr_item hw]
        have hroom' : cpOf ks + w.length < st.cbuf.length := by omega
        obtain ⟨st', hst', hdone⟩ := item_done
          (hkeeps.after ⟨some (pos + seps.length), none, st.buffer⟩) hcp hw hat hroom'
        rw [canonizeLoop_some ht rfl, hst', hitems]
        obtain ⟨n, rfl⟩ : ∃ n, fuel = n + 1 := Nat.exists_eq_add_of_le' (by omega)
        have hend : (none : Option Nat).or st'.p = none := by
          rw [hdone.p]
          rfl
        refine ⟨_, canonizeLoop_none (strtoken_none hend) rfl, hdone.keeps.after _, hdone.length, ?_⟩
        show OnlyCut st.buffer st'.buffer
        rw [hdone.buffer]
        exact OnlyCut.refl _
      · have hmem' : st.buffer.drop pos = seps ++ (w ++ 0x2c :: (p' ++ 0 :: after)) := by
          rw [hmem]
          simp only [List.append_assoc, List.cons_append]
        have ht := strtoken_word hpos hmem' hseps hw (.inr rfl)
        rw [if_neg (by decide)] at ht
        have hword : st.buffer.drop (pos + seps.length) = w ++ 0x2c :: (p' ++ 0 :: after) := by
          rw [← List.drop_drop, hmem', List.drop_left]
        have hat : cstr ((st.buffer.set (pos + seps.length + w.length) 0).drop
            (pos + seps.length)) = w := by
          rw [List.drop_set, if_neg (by omega), Nat.add_sub_cancel_left, hword, set_middle,
            cstr_item hw]
        rw [List.length_append, List.length_append, List.length_cons] at hroom hfuel
        have hroom' : cpOf ks + w.length < st.cbuf.length := by omega
        obtain ⟨st', hst', hdone⟩ := item_done
          (hkeeps.after ⟨some (pos + seps.length), some (pos + seps.length + w.length + 1),
            st.buffer.set (pos + seps.length + w.length) 0⟩) hcp hw hat hroom'
        have hrest : st'.buffer.drop (pos + seps.length + w.length + 1) = p' ++ 0 :: after := by
          rw [hdone.buffer]
          show (st.buffer.set (pos + seps.length + w.length) 0).drop _ = _
          rw [List.drop_set_of_lt (Nat.lt_add_one _), ← List.drop_drop, ← List.drop_drop, hword,
            List.drop_left]
          rfl
        have hle := cpOf_keepNew_le ks w
        have hlength : st'.cbuf.length = st.cbuf.length := hdone.length
        have hnext : (none : Option Nat).or st'.p = some (pos + seps.length + w.length + 1) := by
          rw [hdone.p]
          rfl
        obtain ⟨st'', hst'', hkeeps'', hlen'', hcut⟩ := ih hnext hrest
          (fun h => h0 (by simp [h])) hdone.keeps (hdone.cp _ rfl rfl) (by omega) (by omega)
        rw [canonizeLoop_some ht rfl, hst', hitems]
        refine ⟨st'', hst'', hkeeps'', hlen''.trans hlength, ?_⟩
        rw [hdone.buffer] at hcut
        exact (onlyCut_set (getElem?_drop_append hword)).trans hcut

end Loop

/-- The items, without those that are the same as an earlier one. -/
def canonicalItems (text : List UInt8) : List (List UInt8) := firsts sameItem [] (itemsOf text)

theorem zero_notMem_joinItems {ws : List (List UInt8)} (hws : ∀ w ∈ ws, IsItem w) :
    0 ∉ joinItems ws := by
  induction ws with
  | nil => exact List.not_mem_nil
  | cons w ws ih =>
      have hw : 0 ∉ w := fun h => ((hws w (List.mem_cons_self ..)).bytes 0 h).1 rfl
      cases ws with
      | nil =>
          have hjoin : joinItems [w] = w := List.intercalate_singleton
          rwa [hjoin]
      | cons w' ws =>
          rw [joinItems_cons_cons, List.mem_append, List.mem_cons]
          rintro (h | h | h)
          · exact hw h
          · exact absurd h (by decide)
          · exact ih (fun v hv => hws v (List.mem_cons_of_mem w hv)) h

/-- What `canonize` does to a text that is shorter than `cbuf`: the first ones of
its items are put into `cbuf`, nothing is written outside, and of the text itself
commas become NUL. -/
theorem canonize_spec (text cbuf : List UInt8) (h0 : 0 ∉ text) (hlen : text.length < cbuf.length) :
    ∃ buffer' cbuf', canonize (text ++ [0]) cbuf = .ok (buffer', cbuf') ∧
      cstr cbuf' = joinItems (canonicalItems text) ∧ cbuf'.length = cbuf.length ∧
      OnlyCut (text ++ [0]) buffer' := by
  cases cbuf with
  | nil => exact absurd hlen (Nat.not_lt_zero _)
  | cons b junk =>
      have hstart : Keeps [] ⟨text ++ [0], 0 :: junk, 0, false, none⟩ :=
        ⟨fun _ h => absurd h List.not_mem_nil, rfl, junk, rfl⟩
      have hpos : (some 0).or (none : Option Nat) = some 0 := rfl
      obtain ⟨st, hst, ⟨hitems, -, junk', hcbuf⟩, hlength, hcut⟩ :=
        canonizeLoop_spec ((text ++ [0]).length + 1) hpos rfl h0 hstart rfl
          (by rw [cpOf, if_pos rfl, Nat.zero_add]; exact hlen)
          (by rw [List.length_append]; omega)
      have htrans : ∀ x y z, sameItem x y = true → sameItem y z = true → sameItem x z = true :=
        fun _ _ _ => sameItem_trans
      have hkept : (itemsOf text).foldl (keepNew sameItem) [] = [] ++ canonicalItems text :=
        foldl_keepNew htrans (itemsOf text) fun _ => rfl
      rw [hkept, List.nil_append] at hitems hcbuf
      refine ⟨st.buffer, st.cbuf, ?_, ?_, hlength, hcut⟩
      · rw [canonize]
        show Except.bind (canonizeLoop _ _ ⟨_, 0 :: junk, 0, false, none⟩) _ = _
        rw [hst]
        rfl
      · rw [hcbuf, cstr_terminated (zero_notMem_joinItems hitems)]

/-- `a,A` -/
theorem canonize_spec_twice : ∃ buffer' cbuf',
    canonize ([0x61, 0x2c, 0x41] ++ [0]) (List.replicate 8 0) = .ok (buffer', cbuf') ∧
      cstr cbuf' = [0x61] := by
  obtain ⟨buffer', cbuf', h, htext, -⟩ :=
    canonize_spec [0x61, 0x2c, 0x41] (List.replicate 8 0) (by decide) (by decide)
  exact ⟨buffer', cbuf', h, htext.trans (by decide)⟩

/-- The text is written to as well. -/
theorem canonize_cuts :
    ¬ ∀ text cbuf : List UInt8, 0 ∉ text → text.length < cbuf.length →
      ∃ cbuf', canonize (text ++ [0]) cbuf = .ok (text ++ [0], cbuf') ∧
        cstr cbuf' = joinItems (canonicalItems text) := by
  intro h
  obtain ⟨cbuf', hrun, -⟩ := h [0x61, 0x2c, 0x62] (List.replicate 8 0) (by decide) (by decide)
  have hcut : canonize ([0x61, 0x2c, 0x62] ++ [0]) (List.replicate 8 0) =
      .ok ([0x61, 0, 0x62, 0], [0x61, 0x2c, 0x62, 0, 0, 0, 0, 0]) := by decide
  rw [hcut] at hrun
  cases hrun

end TrIrcd
