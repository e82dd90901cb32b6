import TrIrcd.Proofs.MaskStore
import TrIrcd.Src.Maskfile

/-!
# What a mask file puts into the store

A file is read line by line into records (`MaskLine.enter`): a line for which
there is a record already gives it a new reason, and every other line makes a
record, unless it is for a z-line and no netmask. The store has one ban for
each record and no other of these types (`Shows`), which holds because nothing
here expires and because equal texts share a ban.

All of it rests on `host` and `user` being set by every line. A userhost
without an `@` sets `user` alone, and the item then has the host of the one
before, which is freed (`userhost_freed`).
-/

namespace TrIrcd

open Function (update)
open TrIrcd.Lib

/-! ## Lines -/

/-- An item with one mask and one reason. -/
structure MaskLine where
  kind : MaskKind
  text : List UInt8
  reason : List UInt8
  reasonFirst : Bool
  now : Int

/-- What a ban is to say. -/
structure MaskRecord where
  kind : MaskKind
  user : List UInt8
  host : List UInt8
  reason : List UInt8

namespace MaskRecord

/-- The two are for the same mask. Nothing is the same as an empty host. -/
def Same (e e' : MaskRecord) : Prop :=
  e.kind = e'.kind ∧ cstr e.host ≠ [] ∧ ircStrcmp e.host e'.host = 0 ∧
    (e.kind = .kline → ircStrcmp e.user e'.user = 0)

instance (e e' : MaskRecord) : Decidable (e.Same e') :=
  inferInstanceAs (Decidable (_ ∧ _ ∧ _ ∧ (_ → _)))

/-- Only bans on users have one. -/
def username (e : MaskRecord) : Option (List UInt8) :=
  if e.kind = .kline then some e.user else none

theorem Same.symm {e e' : MaskRecord} (h : e.Same e') : e'.Same e := by
  obtain ⟨hkind, hne, hhost, huser⟩ := h
  refine ⟨hkind.symm, fun hnil => hne ?_, ircStrcmp_comm hhost,
    fun hk => ircStrcmp_comm (huser (hkind.trans hk))⟩
  rw [ircStrcmp_eq_zero, hnil] at hhost
  exact List.map_eq_nil_iff.mp hhost

theorem Same.trans {e e' e'' : MaskRecord} (h : e.Same e') (h' : e'.Same e'') : e.Same e'' :=
  ⟨h.1.trans h'.1, h.2.1, ircStrcmp_trans (ircStrcmp_comm h.2.2.1) h'.2.2.1,
    fun hk => ircStrcmp_trans (ircStrcmp_comm (h.2.2.2 hk)) (h'.2.2.2 (h.1.symm.trans hk))⟩

end MaskRecord

namespace MaskLine

variable (line : MaskLine)

def maskField : MaskField :=
  if line.kind = .kline then .userhost line.text else .masktext line.text

def item : MaskfileItem where
  kind := line.kind
  fields :=
    if line.reasonFirst then [.reason line.reason, line.maskField]
    else [line.maskField, .reason line.reason]
  now := line.now

/-- The user and the host of a userhost, and the text of any other mask. -/
def record : MaskRecord where
  kind := line.kind
  user := if line.kind = .kline then line.text.takeWhile (· ≠ 0x40) else []
  host := if line.kind = .kline then (line.text.dropWhile (· ≠ 0x40)).tail else line.text
  reason := line.reason

/-- A userhost has an `@`, and where a netmask is looked for, there is none or a
sound one. -/
structure Sound : Prop where
  at' : line.kind = .kline → 0x40 ∈ line.text
  netmask : line.kind = .kline ∨ line.kind = .zap →
    ∃ hashval, (parseNetmask line.record.host).bind (maskHash line.record.host) = .ok hashval

/-- A z-line is for a netmask. -/
def Makes : Prop := line.kind = .zap → parseNetmask line.record.host ≠ .ok .host

instance : Decidable line.Makes := inferInstanceAs (Decidable (_ → _))

/-- A record after a line for which it is there. -/
def renew (e : MaskRecord) : MaskRecord :=
  if e.Same line.record then { e with reason := line.reason } else e

/-- The records after a line. -/
def enter (es : List MaskRecord) : List MaskRecord :=
  if ∃ e ∈ es, e.Same line.record then es.map line.renew
  else if line.Makes then line.record :: es
  else es

end MaskLine

namespace MaskLine

variable (line : MaskLine)

theorem renew_eq (e : MaskRecord) : ∃ reason, line.renew e = { e with reason := reason } := by
  rw [renew]
  split
  · exact ⟨_, rfl⟩
  · exact ⟨e.reason, rfl⟩

theorem renew_same {e e' : MaskRecord} : (line.renew e).Same e' ↔ e.Same e' := by
  obtain ⟨reason, he⟩ := line.renew_eq e
  rw [he]
  exact Iff.rfl

end MaskLine

/-! ## The fields -/

/-- No pointer is left to what was freed. -/
structure Maskfile.Kept (f : Maskfile) : Prop where
  host : f.host ≠ .freed
  user : f.user ≠ .freed
  reason : f.reason ≠ .freed

theorem StaticPtr.free_ok {p : StaticPtr} (h : p ≠ .freed) : ∃ p', p.free = .ok p' := by
  cases p with
  | null => exact ⟨_, rfl⟩
  | text s => exact ⟨_, rfl⟩
  | freed => exact absurd rfl h

/-- A line leaves its own texts, in whatever order its fields come. -/
theorem MaskLine.fields_ok (line : MaskLine) {f : Maskfile} (h : f.Kept) (hline : line.Sound) :
    ∃ user, Maskfile.fields line.item.fields f = .ok { f with
        host := .text line.record.host, user := user, reason := .text line.reason } ∧
      user ≠ .freed ∧ (line.kind = .kline → user = .text line.record.user) := by
  obtain ⟨host', hhost⟩ := StaticPtr.free_ok h.host
  obtain ⟨user', huser⟩ := StaticPtr.free_ok h.user
  obtain ⟨reason', hreason⟩ := StaticPtr.free_ok h.reason
  by_cases hk : line.kind = .kline
  · have hat := hline.at' hk
    refine ⟨.text line.record.user, ?_, StaticPtr.noConfusion, fun _ => rfl⟩
    cases hf : line.reasonFirst <;>
      simp [item, hf, maskField, hk, Maskfile.fields, Maskfile.field, hhost, huser, hreason,
        Except.map, Except.bind, hat, record]
  · refine ⟨f.user, ?_, h.user, fun hk' => absurd hk' hk⟩
    cases hf : line.reasonFirst <;>
      simp [item, hf, maskField, hk, Maskfile.fields, Maskfile.field, hhost, hreason,
        Except.map, Except.bind, record]

/-! ## The bans of the store -/

namespace Maskfile

open MaskSt (Placed Lapsed findMaskitem_placed findMaskitem_none addItem_placed addItem_new)

/-- The ban `b` says what the record says, and for good. -/
structure Banned (s : MaskSt) (reasonOf : Nat → Option (List UInt8)) (b : Nat)
    (e : MaskRecord) : Prop where
  item : b ∈ s.items (e.kind.type - 1)
  string : (s.item b).string = e.host
  username : (s.item b).username = e.username
  expiration : (s.item b).expiration = 0
  reason : reasonOf b = some e.reason

/-- The bans of a store, beside the records they are for. -/
structure Shows (s : MaskSt) (reasonOf : Nat → Option (List UInt8))
    (L : List (Nat × MaskRecord)) : Prop where
  placed : ∃ V, Placed s V
  bans : ∀ x ∈ L, Banned s reasonOf x.1 x.2
  all : ∀ kind : MaskKind, ∀ b ∈ s.items (kind.type - 1), ∃ e, (b, e) ∈ L
  apart : ∀ x ∈ L, ∀ y ∈ L, x.1 = y.1 ∨ x.2.Same y.2 → x = y

variable {s : MaskSt} {reasonOf : Nat → Option (List UInt8)} {L : List (Nat × MaskRecord)}

theorem Shows.setClock (h : Shows s reasonOf L) (now : Int) :
    Shows { s with clock := now } reasonOf L := by
  obtain ⟨V, hV⟩ := h.placed
  refine ⟨⟨V, hV.setClock now⟩, fun x hx => ?_, h.all, h.apart⟩
  have hban := h.bans x hx
  exact ⟨hban.item, hban.string, hban.username, hban.expiration, hban.reason⟩

/-- None of the bans comes to its end. -/
theorem Shows.lapsed (h : Shows s reasonOf L) {s' : MaskSt} (hl : Lapsed s s') :
    Shows s' reasonOf L := by
  obtain ⟨out, hsw, hout⟩ := hl
  refine ⟨hsw.placed, fun x hx => ?_, fun kind b hb => h.all kind b ((hsw.mem _ b).mp hb).1,
    h.apart⟩
  have hban := h.bans x hx
  have hitem : s'.item x.1 = s.item x.1 := congrFun hsw.item x.1
  refine ⟨(hsw.mem _ _).mpr ⟨hban.item, fun ho => ?_⟩, ?_, ?_, ?_, hban.reason⟩
  · have hexp := hout _ _ ho
    rw [MaskItem.expired, hban.expiration] at hexp
    cases hexp
  · rw [hitem, hban.string]
  · rw [hitem, hban.username]
  · rw [hitem, hban.expiration]

theorem type_inj {k k' : MaskKind} (h : k.type - 1 = k'.type - 1) : k = k' := by
  revert h
  cases k <;> cases k' <;> decide

/-- A lookup for a record finds the bans that are for the same mask. -/
theorem Banned.found_iff (E : MaskEnv) {b : Nat} {e e' : MaskRecord}
    (h : Banned s reasonOf b e) (hkind : e.kind = e'.kind) (hne : cstr e'.host ≠ []) :
    foundBy E e'.host e'.username e'.kind.type false (s.item b) = true ↔
      e.Same e' := by
  have htype : e'.kind.type < 13 := by cases e'.kind <;> decide
  have hhost : ircStrcmp e.host e'.host = 0 → cstr e.host ≠ [] := by
    intro h0 hnil
    rw [ircStrcmp_eq_zero, hnil] at h0
    exact hne (List.map_eq_nil_iff.mp h0.symm)
  by_cases hk : e'.kind = .kline
  · have huser : (s.item b).username = some e.user := by
      rw [h.username, MaskRecord.username, if_pos (hkind.trans hk)]
    rw [MaskRecord.username, if_pos hk, foundBy.eq_1 _ _ _ _ _ _ _ huser, if_pos htype, h.string]
    simp only [Bool.false_eq_true, if_false, Bool.and_eq_true, decide_eq_true_eq, MaskRecord.Same]
    exact ⟨fun hx => ⟨hkind, hhost hx.1, hx.1, fun _ => hx.2⟩,
      fun hs => ⟨hs.2.2.1, hs.2.2.2 (hkind.trans hk)⟩⟩
  · have hnone : ∀ user username : List UInt8, (none : Option (List UInt8)) = some user →
        (s.item b).username = some username → False := by
      intro _ _ hu
      cases hu
    rw [MaskRecord.username, if_neg hk, foundBy.eq_2 _ _ _ _ _ _ hnone, if_pos htype, h.string]
    simp only [Bool.false_eq_true, if_false, Bool.and_true, decide_eq_true_eq, MaskRecord.Same]
    exact ⟨fun hx => ⟨hkind, hhost hx, hx, fun hk' => absurd (hkind.symm.trans hk') hk⟩,
      fun hs => hs.2.2.1⟩

/-- A ban that is there gets the new reason. -/
theorem Shows.found (h : Shows s reasonOf L) (line : MaskLine)
    {x : Nat × MaskRecord} (hx : x ∈ L) (hsame : x.2.Same line.record) :
    Shows s (update reasonOf x.1 (some line.reason))
      (L.map fun y : Nat × MaskRecord => (y.1, line.renew y.2)) := by
  have hself : ∀ y ∈ L, y.2.Same line.record ↔ y.1 = x.1 := by
    intro y hy
    constructor
    · intro hs
      rw [h.apart y hy x hx (Or.inr (hs.trans hsame.symm))]
    · intro he
      rw [h.apart y hy x hx (Or.inl he)]
      exact hsame
  refine ⟨h.placed, ?_, fun kind b hb => ?_, ?_⟩
  · intro z hz
    obtain ⟨y, hy, rfl⟩ := List.mem_map.mp hz
    have hban := h.bans y hy
    dsimp only
    by_cases hs : y.2.Same line.record
    · rw [MaskLine.renew, if_pos hs]
      refine ⟨hban.item, hban.string, hban.username, hban.expiration, ?_⟩
      show update reasonOf x.1 (some line.reason) y.1 = _
      rw [(hself y hy).mp hs, Function.update_self]
    · rw [MaskLine.renew, if_neg hs]
      refine ⟨hban.item, hban.string, hban.username, hban.expiration, ?_⟩
      rw [← hban.reason]
      exact Function.update_of_ne (fun he => hs ((hself y hy).mpr he)) ..
  · obtain ⟨e, he⟩ := h.all kind b hb
    exact ⟨line.renew e, List.mem_map_of_mem he⟩
  · intro z hz z' hz' hor
    obtain ⟨y, hy, rfl⟩ := List.mem_map.mp hz
    obtain ⟨y', hy', rfl⟩ := List.mem_map.mp hz'
    obtain ⟨reason, he⟩ := line.renew_eq y'.2
    dsimp only at hor
    rw [he, line.renew_same] at hor
    rw [h.apart y hy y' hy' hor]

/-- The new ban is for the line, and stands beside the others. -/
theorem Shows.new (E : MaskEnv) (h : Shows s reasonOf L) (line : MaskLine)
    (hno : ∀ x ∈ L, ¬ x.2.Same line.record) {hashval : Nat} (hh : hashval < maskMax)
    {r : Option Nat} {s' : MaskSt}
    (ha : addItem E line.kind.type hashval line.record.host line.record.username 0 s =
      (r, s')) :
    ∃ ami, r = some ami ∧
      Shows s' (update reasonOf ami (some line.reason))
        ((ami, line.record) :: L) := by
  obtain ⟨V, hV⟩ := h.placed
  have hone : 1 ≤ line.kind.type := by cases line.kind <;> decide
  obtain ⟨hp, _, _⟩ := addItem_placed E hV hh _ _ _ hone ha
  obtain ⟨ami, hr, hfresh, hitems, hitem⟩ := addItem_new E hV hashval _ _ _ _ ha
  have hold : ∀ x ∈ L, x.1 ≠ ami := fun x hx he => hfresh (he ▸ hV.used _ _ (h.bans x hx).item)
  refine ⟨ami, hr, hp, ?_, ?_, ?_⟩
  · intro x hx
    rcases List.mem_cons.mp hx with rfl | hx
    · have hself : s'.item ami = ⟨line.kind.type, hashval, line.record.host, line.record.username,
          expirationOf 0 s, []⟩ := by rw [hitem, Function.update_self]
      refine ⟨?_, ?_, ?_, ?_, Function.update_self ..⟩
      · show ami ∈ s'.items (line.kind.type - 1)
        rw [hitems, Function.update_self]
        exact List.mem_cons_self ..
      · show (s'.item ami).string = _
        rw [hself]
      · show (s'.item ami).username = _
        rw [hself]
      · show (s'.item ami).expiration = 0
        rw [hself]
        rfl
    · have hban := h.bans x hx
      have hkeep : s'.item x.1 = s.item x.1 := by
        rw [hitem, Function.update_of_ne (hold x hx)]
      refine ⟨?_, ?_, ?_, ?_, ?_⟩
      · show x.1 ∈ s'.items (x.2.kind.type - 1)
        rw [hitems]
        exact mem_update_cons.mpr (Or.inr hban.item)
      · show (s'.item x.1).string = _
        rw [hkeep, hban.string]
      · show (s'.item x.1).username = _
        rw [hkeep, hban.username]
      · show (s'.item x.1).expiration = 0
        rw [hkeep, hban.expiration]
      · rw [← hban.reason]
        exact Function.update_of_ne (hold x hx) ..
  · intro kind b hb
    rw [hitems, mem_update_cons] at hb
    rcases hb with ⟨rfl, _⟩ | hb
    · exact ⟨_, List.mem_cons_self ..⟩
    · obtain ⟨e, he⟩ := h.all kind b hb
      exact ⟨e, List.mem_cons_of_mem _ he⟩
  · intro x hx y hy hor
    rcases List.mem_cons.mp hx with rfl | hx' <;> rcases List.mem_cons.mp hy with rfl | hy'
    · rfl
    · rcases hor with he | hs
      · exact absurd he.symm (hold y hy')
      · exact absurd hs.symm (hno y hy')
    · rcases hor with he | hs
      · exact absurd he (hold x hx')
      · exact absurd hs (hno x hx')
    · exact h.apart x hx' y hy' hor

end Maskfile

/-! ## A line -/

namespace MaskLine

variable (line : MaskLine)

theorem username_kline (hk : line.kind = .kline) :
    line.record.username = some line.record.user := if_pos hk

theorem username_named (hk : line.kind ≠ .kline) : line.record.username = none := if_neg hk

theorem Sound.hash {line : MaskLine} (h : line.Sound)
    (hk : line.kind = .kline ∨ line.kind = .zap) :
    ∃ t hashval, parseNetmask line.record.host = .ok t ∧
      maskHash line.record.host t = .ok hashval ∧ hashval < maskMax := by
  obtain ⟨hashval, hh⟩ := h.netmask hk
  obtain ⟨t, ht, hh⟩ := bind_ok_iff.mp hh
  exact ⟨t, hashval, ht, hh, MaskSt.maskHash_lt hh⟩

theorem newItem_makes (E : MaskEnv) (hline : line.Sound) (hmakes : line.Makes) (s : MaskSt) :
    ∃ hashval, hashval < maskMax ∧
      newItem E (some line.record.host) line.record.username line.kind.type 0 s =
        .ok (addItem E line.kind.type hashval line.record.host line.record.username 0 s) := by
  cases hk : line.kind with
  | kline =>
      obtain ⟨t, hashval, ht, hh, hlt⟩ := hline.hash (Or.inl hk)
      refine ⟨hashval, hlt, ?_⟩
      rw [line.username_kline hk]
      simp [newItem, isUserMask, MaskKind.type, ht, hh, Except.bind, Except.map]
  | zap =>
      obtain ⟨t, hashval, ht, hh, hlt⟩ := hline.hash (Or.inr hk)
      have hnamed : line.kind ≠ .kline := by simp [hk]
      cases t with
      | host => exact absurd ht (hmakes hk)
      | ipv4 addr bits =>
          refine ⟨hashval, hlt, ?_⟩
          have hh' : hashIpv4 addr bits = .ok hashval := hh
          rw [line.username_named hnamed]
          simp [newItem, isUserMask, isZapline, MaskKind.type, ht, hh', Except.bind, Except.map]
  | quarantine | gecosDeny | jupiter =>
      have hnamed : line.kind ≠ .kline := by simp [hk]
      refine ⟨_, MaskSt.hashString_lt line.record.host, ?_⟩
      rw [line.username_named hnamed]
      rfl

theorem newItem_zap (E : MaskEnv) (hmakes : ¬ line.Makes) (s : MaskSt) :
    newItem E (some line.record.host) line.record.username line.kind.type 0 s =
      .ok (none, s) := by
  obtain ⟨hk, hhost⟩ := Classical.not_imp.mp hmakes
  have hnamed : line.kind ≠ .kline := by simp [hk]
  rw [line.username_named hnamed, hk]
  simp [newItem, isUserMask, isZapline, MaskKind.type, not_not.mp hhost, Except.bind]

end MaskLine

namespace Maskfile

open MaskSt (findMaskitem_placed findMaskitem_none)

variable {f : Maskfile} {L : List (Nat × MaskRecord)}

/-- Where something is found, something was looked for. -/
theorem found_nonempty {E : MaskEnv} {text : List UInt8} {user : Option (List UInt8)}
    {type ami : Nat} {m : Bool} {s s' : MaskSt}
    (hf : findMaskitem E (some text) user type m s = (some ami, s')) : cstr text ≠ [] := by
  intro hnil
  rw [findMaskitem, if_pos hnil] at hf
  cases hf

/-- The action for a line, on the texts that the line has left. -/
theorem Shows.allItems (E : MaskEnv) (h : Shows f.store f.reasonOf L)
    (line : MaskLine) (hline : line.Sound) (hhost : f.host = .text line.record.host)
    (huser : line.kind = .kline → f.user = .text line.record.user)
    (hreason : f.reason = .text line.reason) :
    ∃ store reasonOf L', f.allItems E line.kind line.now =
        .ok { f with store := store, reasonOf := reasonOf } ∧
      Shows store reasonOf L' ∧
      L'.map Prod.snd = line.enter (L.map Prod.snd) := by
  have hfor : f.userFor line.kind = .ok line.record.username := by
    by_cases hk : line.kind = .kline
    · rw [line.username_kline hk, hk, userFor, huser hk, StaticPtr.read]
    · rw [line.username_named hk, userFor]
      exact hk
  rw [Maskfile.allItems, hhost, StaticPtr.read, hfor]
  dsimp only [Except.bind]
  rw [createMaskitem]
  obtain ⟨V, hV⟩ := h.placed
  generalize hfind : findMaskitem E (some line.record.host) line.record.username line.kind.type
    false { f.store with clock := line.now } = found
  obtain ⟨r, s⟩ := found
  obtain ⟨hlapsed, hfound⟩ := findMaskitem_placed E (hV.setClock line.now) hfind
  have hs := (h.setClock line.now).lapsed hlapsed
  obtain ⟨V', hV'⟩ := hs.placed
  cases r with
  | some ami =>
      obtain ⟨hin, text, htext, hby⟩ := hfound ami rfl
      cases htext
      obtain ⟨e, he⟩ := hs.all line.kind ami hin
      have hban := hs.bans _ he
      have hkind : e.kind = line.kind := type_inj (hV'.apart hban.item hin)
      have hsame := (hban.found_iff E hkind (found_nonempty hfind)).mp hby
      refine ⟨s, update f.reasonOf ami (some line.reason), _, ?_, hs.found line he hsame, ?_⟩
      · dsimp only
        rw [hreason]
        rfl
      · rw [MaskLine.enter, if_pos ⟨e, List.mem_map_of_mem he, hsame⟩, List.map_map, List.map_map]
        rfl
  | none =>
      have hno : ∀ x ∈ L, ¬ x.2.Same line.record := by
        intro x hx hsame
        have hban := hs.bans x hx
        have hin : x.1 ∈ s.items (line.kind.type - 1) := by
          have hitem := hban.item
          rwa [hsame.1] at hitem
        have hne := hsame.symm.2.1
        have hnot := findMaskitem_none E (hV.setClock line.now) hfind hne x.1 hin
        exact Bool.false_ne_true (hnot.symm.trans ((hban.found_iff E hsame.1 hne).mpr hsame))
      have hnone : ¬ ∃ e ∈ L.map Prod.snd, e.Same line.record := by
        rintro ⟨e, he, hsame⟩
        obtain ⟨x, hx, rfl⟩ := List.mem_map.mp he
        exact hno x hx hsame
      by_cases hmakes : line.Makes
      · obtain ⟨hashval, hlt, hnew⟩ := line.newItem_makes E hline hmakes s
        dsimp only
        rw [hnew]
        generalize hadd : addItem E line.kind.type hashval line.record.host
          line.record.username 0 s = added
        obtain ⟨r, s'⟩ := added
        obtain ⟨ami, rfl, hshows⟩ := hs.new E line hno hlt hadd
        refine ⟨s', update f.reasonOf ami (some line.reason), _, ?_, hshows, ?_⟩
        · dsimp only
          rw [hreason]
          rfl
        · rw [MaskLine.enter, if_neg hnone, if_pos hmakes, List.map_cons]
      · dsimp only
        rw [line.newItem_zap E hmakes]
        refine ⟨s, f.reasonOf, L, rfl, hs, ?_⟩
        rw [MaskLine.enter, if_neg hnone, if_neg hmakes]

/-- A line that has been read, and its bans with it. -/
theorem Shows.line (E : MaskEnv) (h : Shows f.store f.reasonOf L) (hf : f.Kept)
    (line : MaskLine) (hline : line.Sound) :
    ∃ f' L', (fields line.item.fields f).bind (Maskfile.allItems E line.kind line.now) = .ok f' ∧
      f'.Kept ∧ Shows f'.store f'.reasonOf L' ∧ L'.map Prod.snd = line.enter (L.map Prod.snd) := by
  obtain ⟨user, hfields, hkept, huser⟩ := line.fields_ok hf hline
  rw [hfields]
  obtain ⟨store, reasonOf, L', hall, hshows, hL⟩ := Shows.allItems E (f := { f with
    host := .text line.record.host, user := user, reason := .text line.reason })
    h line hline rfl huser rfl
  exact ⟨_, L', hall, ⟨StaticPtr.noConfusion, hkept, StaticPtr.noConfusion⟩, hshows, hL⟩

/-- A file that has been read. -/
theorem conf_shows (E : MaskEnv) (file : List MaskLine) :
    ∀ {f : Maskfile} {L : List (Nat × MaskRecord)}, Shows f.store f.reasonOf L → f.Kept →
      (∀ line ∈ file, line.Sound) →
      ∃ f' L', conf E (file.map MaskLine.item) f = .ok f' ∧ Shows f'.store f'.reasonOf L' ∧
        L'.map Prod.snd = file.foldl (fun es line => line.enter es) (L.map Prod.snd) := by
  induction file with
  | nil => exact fun h _ _ => ⟨_, _, rfl, h, rfl⟩
  | cons line file ih =>
      intro f L h hf hsound
      obtain ⟨f₁, L₁, hline, hf₁, h₁, hL₁⟩ := h.line E hf line (hsound line (List.mem_cons_self ..))
      obtain ⟨f', L', hconf, h', hL'⟩ := ih h₁ hf₁ fun l hl => hsound l (List.mem_cons_of_mem _ hl)
      refine ⟨f', L', ?_, h', ?_⟩
      · rw [List.map_cons, conf]
        show ((fields line.item.fields f).bind (Maskfile.allItems E line.kind line.now)).bind _ = _
        rw [hline]
        exact hconf
      · rw [hL', hL₁, List.foldl_cons]

end Maskfile

/-! ## What is left of a line -/

/-- The reason of the last line that is for the record. -/
def MaskRecord.lastReason (e : MaskRecord) (post : List MaskLine) : List UInt8 :=
  post.foldl (fun reason line => if line.record.Same e then line.reason else reason) e.reason

namespace MaskLine

variable {line : MaskLine} {es : List MaskRecord}

/-- No line for a mask, no record for it. -/
theorem enters_none {e' : MaskRecord} (pre : List MaskLine) :
    ∀ {es : List MaskRecord}, (∀ e ∈ es, ¬ e.Same e') → (∀ l ∈ pre, ¬ l.record.Same e') →
      ∀ e ∈ pre.foldl (fun es l => l.enter es) es, ¬ e.Same e' := by
  induction pre with
  | nil => exact fun hes _ => hes
  | cons l pre ih =>
      intro es hes hpre
      refine ih ?_ fun l' hl' => hpre l' (List.mem_cons_of_mem _ hl')
      intro e (he : e ∈ l.enter es)
      rw [enter] at he
      split at he
      next =>
        obtain ⟨e₀, he₀, rfl⟩ := List.mem_map.mp he
        rw [l.renew_same]
        exact hes e₀ he₀
      next =>
        split at he
        next =>
          rcases List.mem_cons.mp he with rfl | he
          · exact hpre l (List.mem_cons_self ..)
          · exact hes e he
        next => exact hes e he

/-- The first line for a mask makes a record. -/
theorem enter_new (hno : ∀ e ∈ es, ¬ e.Same line.record) (hmakes : line.Makes) :
    line.record ∈ line.enter es := by
  have hnone : ¬ ∃ e ∈ es, e.Same line.record := fun ⟨e, he, hs⟩ => hno e he hs
  rw [enter, if_neg hnone, if_pos hmakes]
  exact List.mem_cons_self ..

/-- A record stays, but for its reason. -/
theorem renew_mem_enter {e : MaskRecord} (he : e ∈ es) : line.renew e ∈ line.enter es := by
  rw [enter]
  split
  next => exact List.mem_map_of_mem he
  next hno =>
    rw [renew, if_neg fun hs => hno ⟨e, he, hs⟩]
    split
    · exact List.mem_cons_of_mem _ he
    · exact he

theorem lastReason_mem_enters (post : List MaskLine) :
    ∀ {es : List MaskRecord} {e : MaskRecord}, e ∈ es →
      { e with reason := e.lastReason post } ∈ post.foldl (fun es l => l.enter es) es := by
  induction post with
  | nil => exact fun he => he
  | cons l post ih =>
      intro es e he
      have hrest := ih (l.renew_mem_enter he)
      rw [MaskRecord.lastReason, List.foldl_cons, List.foldl_cons]
      by_cases hs : e.Same l.record
      · rw [renew, if_pos hs] at hrest
        rw [if_pos hs.symm]
        exact hrest
      · rw [renew, if_neg hs] at hrest
        rw [if_neg fun hs' => hs hs'.symm]
        exact hrest

end MaskLine

/-! ## The file -/

/-- A userhost without an `@` frees the host of the item before, and leaves it. -/
theorem userhost_freed (E : MaskEnv) {f : Maskfile} (hf : f.Kept) {host : List UInt8}
    (hhost : f.host = .text host) (line : MaskLine) (hk : line.kind = .kline)
    (hat : 0x40 ∉ line.text) :
    (Maskfile.fields line.item.fields f).bind (Maskfile.allItems E line.kind line.now) =
      .error .freed := by
  obtain ⟨user', huser⟩ := StaticPtr.free_ok hf.user
  obtain ⟨reason', hreason⟩ := StaticPtr.free_ok hf.reason
  have hfree : f.host.free = .ok .freed := by rw [hhost, StaticPtr.free]
  have hread : StaticPtr.freed.read = .error .freed := rfl
  cases hr : line.reasonFirst <;>
    simp [MaskLine.item, hr, MaskLine.maskField, hk, Maskfile.fields, Maskfile.field, hfree,
      huser, hreason, Except.map, Except.bind, hat, Maskfile.allItems, hread]

/-- The first item for a mask puts a ban into the store, with the reason of the
last. -/
theorem maskfile_bans (E : MaskEnv) {f : Maskfile} {V : Nat → List Nat}
    (hplaced : f.store.Placed V) (hempty : ∀ kind : MaskKind, f.store.items (kind.type - 1) = [])
    (hkept : f.Kept) (file : List MaskLine) (hsound : ∀ line ∈ file, line.Sound) :
    ∃ f', Maskfile.conf E (file.map MaskLine.item) f = .ok f' ∧
      ∀ pre line post, file = pre ++ line :: post →
        (∀ l ∈ pre, ¬ l.record.Same line.record) → line.Makes →
        ∃ b, Maskfile.Banned f'.store f'.reasonOf b
          { line.record with reason := line.record.lastReason post } := by
  have hshows : Maskfile.Shows f.store f.reasonOf [] := by
    refine ⟨⟨V, hplaced⟩, (fun _ hx => nomatch hx), fun kind b hb => ?_, fun _ hx => nomatch hx⟩
    rw [hempty] at hb
    cases hb
  obtain ⟨f', L', hconf, h', hL'⟩ := Maskfile.conf_shows E file hshows hkept hsound
  refine ⟨f', hconf, fun pre line post hfile hfirst hmakes => ?_⟩
  have hno := @MaskLine.enters_none line.record pre [] (fun _ he => nomatch he) hfirst
  have hmem := MaskLine.lastReason_mem_enters post (MaskLine.enter_new hno hmakes)
  have hfold : L'.map Prod.snd = post.foldl (fun es l => l.enter es)
      (line.enter (pre.foldl (fun es l => l.enter es) [])) := by
    rw [hL', hfile, List.foldl_append, List.foldl_cons]
    rfl
  rw [← hfold] at hmem
  obtain ⟨x, hx, he⟩ := List.mem_map.mp hmem
  exact ⟨x.1, he ▸ h'.bans x hx⟩

section Samples

/-- The parser as it starts. -/
def freshMaskfile : Maskfile := ⟨MaskSt.init 100, fun _ => none, .null, .null, .null⟩

/-- `*@10.0.0.0/8` twice, and a z-line between. -/
def maskfileSample : List MaskLine :=
  [⟨.kline, 0x2a :: 0x40 :: netText, [0x61], true, 100⟩, ⟨.zap, hostText, [0x62], false, 110⟩,
    ⟨.kline, 0x2a :: 0x40 :: netText, [0x63], false, 120⟩]

theorem maskfile_bans_sample : ∃ f',
    Maskfile.conf plainMasks (maskfileSample.map MaskLine.item) freshMaskfile = .ok f' ∧
      (∃ b, Maskfile.Banned f'.store f'.reasonOf b ⟨.kline, [0x2a], netText, [0x63]⟩) ∧
      ∃ b, Maskfile.Banned f'.store f'.reasonOf b ⟨.zap, [], hostText, [0x62]⟩ := by
  have hsound : ∀ line ∈ maskfileSample, line.Sound := by
    intro line hline
    simp only [maskfileSample, List.mem_cons, List.not_mem_nil, or_false] at hline
    rcases hline with rfl | rfl | rfl
    · exact ⟨fun _ => by decide, fun _ => ⟨_, rfl⟩⟩
    · exact ⟨(fun hk => nomatch hk), fun _ => ⟨_, rfl⟩⟩
    · exact ⟨fun _ => by decide, fun _ => ⟨_, rfl⟩⟩
  obtain ⟨f', hconf, hbans⟩ := maskfile_bans plainMasks (f := freshMaskfile)
    (MaskSt.init_placed 100) (fun _ => rfl)
    ⟨StaticPtr.noConfusion, StaticPtr.noConfusion, StaticPtr.noConfusion⟩ maskfileSample hsound
  refine ⟨f', hconf, ?_, ?_⟩
  · exact hbans [] _ _ rfl (fun _ hl => nomatch hl) (by decide)
  · exact hbans [_] _ _ rfl (by decide) (by decide)

/-- An item of the file that no ban is made for: a z-line for `a.b`. -/
theorem zap_host_not_made : ∃ f',
    Maskfile.conf plainMasks
        [⟨.zap, [.masktext [0x61, 0x2e, 0x62], .reason [0x72]], 100⟩] freshMaskfile = .ok f' ∧
      f'.store.items (MaskKind.zap.type - 1) = [] :=
  ⟨_, rfl, rfl⟩

end Samples

end TrIrcd
