import TrIrcd.Lib.Keyed
import TrIrcd.Lib.Run
import TrIrcd.Src.Commands

/-!
# The command table is a case-insensitive map

`latest ops cmd` reads off a history of calls which message a name stands
for: the first one added under an equal name since the name was last deleted.
`Holds s f` says that the table of `s` is the map `f`: its chains hold
entries with pairwise different names, each in the chain its name hashes to,
and searching a chain gives what `f` gives. Every call keeps it, with `f`
changed as the call says, so `hash_parse` answers what the history says.

The index of a name does not depend on its case (`hash_congr`), so an entry
with the name looked for is in no other chain.
-/

namespace TrIrcd

open Function (update)
open TrIrcd.Lib

inductive CommandOp
  | add (msg : Nat)
  | delCmd (msg : Nat)
  | delMsg (string : Option (List UInt8))

namespace CommandOp

/-- The name a call works on. -/
def name (message : Nat → Message) : CommandOp → Option (List UInt8)
  | .add msg => some (message msg).cmd
  | .delCmd msg => some (message msg).cmd
  | .delMsg string => string

/-- What a name stands for after a call. -/
def apply (message : Nat → Message) (cmd : List UInt8) (op : CommandOp)
    (current : Option Nat) : Option Nat :=
  match op.name message with
  | none => current
  | some string =>
      if ircStrcmp cmd string = 0 then
        match op with
        | .add msg => current.or (some msg)
        | .delCmd _ => none
        | .delMsg _ => none
      else current

end CommandOp

/-- What a name stands for after a history of calls, if it stood for `current`
before. -/
def latestFrom (message : Nat → Message) (ops : List CommandOp) (cmd : List UInt8)
    (current : Option Nat) : Option Nat :=
  ops.foldl (fun current op => op.apply message cmd current) current

/-- What a name stands for after a history of calls on the empty table. -/
def latest (message : Nat → Message) (ops : List CommandOp) (cmd : List UInt8) :
    Option Nat :=
  latestFrom message ops cmd none

/-- The sum of the name's bytes leaves `int`. -/
def Overflows (cmd : List UInt8) : Prop := intMax < letterSum (cstr cmd)

namespace CommandSt

def step (A : Allocator) (s : CommandSt) : CommandOp → Except CommandFault CommandSt
  | .add msg => modAddCmd A msg s
  | .delCmd msg => modDelCmd msg s
  | .delMsg string => modDelMsg string s

/-- The name of an entry, as `irc_strcmp` sees it. -/
def key (s : CommandSt) (x : Nat) : List UInt8 := foldName (s.entryCmd x)

/-- The table of `s` is the map `f`, over chains `V`. -/
structure HoldsIn (V : Nat → List Nat) (s : CommandSt) (f : List UInt8 → Option Nat) :
    Prop where
  chains : Chains s.msgHashTable V
  used : ∀ i, ∀ x ∈ V i, x ∈ s.used
  distinct : ∀ i, Keyed s.key (V i)
  lookup : ∀ cmd i, hash cmd = .ok i →
    ((V i).find? fun x => s.key x = foldName cmd).map s.entryMsg = f cmd

def Holds (s : CommandSt) (f : List UInt8 → Option Nat) : Prop := ∃ V, HoldsIn V s f

variable {s : CommandSt} {f : List UInt8 → Option Nat} {V : Nat → List Nat}

theorem cleared_holds (message : Nat → Message) : Holds (cleared message) fun _ => none := by
  refine ⟨fun _ => [], Chains.empty, ?_, fun _ => Keyed.nil, fun _ _ _ => rfl⟩
  intro i x hx
  cases hx

namespace HoldsIn

theorem congr (h : HoldsIn V s f) {g : List UInt8 → Option Nat}
    (hg : ∀ cmd, g cmd = f cmd) : HoldsIn V s g := by
  rw [funext hg]
  exact h

/-- The comparison of the loop, as equality of keys. -/
theorem seek_eq (s : CommandSt) (i : Nat) (cmd : List UInt8) :
    s.seek i cmd = s.msgHashTable.seek i fun x => s.key x = foldName cmd := by
  have hp : (fun ptr => decide (ircStrcmp cmd (s.entryCmd ptr) = 0)) =
      fun x => decide (s.key x = foldName cmd) :=
    funext fun x => decide_eq_decide.mpr ircStrcmp_eq_zero_iff
  rw [CommandSt.seek, hp]

theorem hashParse (h : HoldsIn V s f) {cmd : List UInt8} {i : Nat}
    (hi : hash cmd = .ok i) : s.hashParse cmd = .ok (f cmd) := by
  rw [CommandSt.hashParse, hi, ← h.lookup cmd i hi]
  simp only [Except.map, seek_eq, h.chains.seek]

/-- The entry found for a name has the name's neighbours around it. -/
theorem seek_some (h : HoldsIn V s f) {i x : Nat} {cmd : List UInt8}
    (hf : ((V i).find? fun y => s.key y = foldName cmd) = some x) :
    ∃ as bs, V i = as ++ x :: bs ∧ s.seek i cmd = (as.getLast?, some x) ∧
      s.key x = foldName cmd := by
  obtain ⟨as, bs, hv, hs⟩ := h.chains.seek_some hf
  exact ⟨as, bs, hv, (seek_eq s i cmd).trans hs, (find?_key_some hf).2⟩

/-- Where a name has no entry, the search ends at the end of the chain. -/
theorem seek_none (h : HoldsIn V s f) {i : Nat} {cmd : List UInt8}
    (hf : ((V i).find? fun y => s.key y = foldName cmd) = none) :
    s.seek i cmd = ((V i).getLast?, none) :=
  (seek_eq s i cmd).trans (h.chains.seek_none hf)

/-- An entry for a name that has none. -/
theorem addEntry (h : HoldsIn V s f) (A : Allocator) {msg i : Nat}
    (hi : hash (s.message msg).cmd = .ok i)
    (hf : ((V i).find? fun x => s.key x = foldName (s.message msg).cmd) = none) :
    Holds (s.addEntry A i (V i).getLast? msg) fun cmd =>
      if ircStrcmp cmd (s.message msg).cmd = 0 then (f cmd).or (some msg) else f cmd := by
  have hnew : ∀ j, A.pick s.used ∉ V j := fun j hx =>
    A.pick_fresh s.used (h.used j _ hx)
  have hne : ∀ {j x}, x ∈ V j → x ≠ A.pick s.used := fun hx e => hnew _ (by rw [← e]; exact hx)
  -- The entries that were there keep their name and their message.
  have hkey : ∀ {j x}, x ∈ V j → (s.addEntry A i (V i).getLast? msg).key x = s.key x := by
    intro j x hx
    exact congrArg foldName (Function.update_of_ne (hne hx) ..)
  have hself : (s.addEntry A i (V i).getLast? msg).key (A.pick s.used) =
      foldName (s.message msg).cmd := by
    rw [← foldName_cstr]
    exact congrArg foldName (Function.update_self ..)
  have hold : ∀ j (cmd : List UInt8), ((V j).find? fun x =>
      (s.addEntry A i (V i).getLast? msg).key x = foldName cmd).map
        (s.addEntry A i (V i).getLast? msg).entryMsg =
      ((V j).find? fun x => s.key x = foldName cmd).map s.entryMsg := by
    intro j cmd
    rw [find?_key_congr fun x hx => hkey hx]
    cases hx : (V j).find? fun x => s.key x = foldName cmd with
    | none => rfl
    | some x =>
        exact congrArg some (Function.update_of_ne (hne (List.mem_of_find?_eq_some hx)) ..)
  refine ⟨update V i (V i ++ [A.pick s.used]), h.chains.append hnew i, ?_, ?_, ?_⟩
  · intro j x hx
    by_cases hji : j = i
    · subst hji
      rw [Function.update_self] at hx
      rcases List.mem_append.mp hx with hx | hx
      · exact List.mem_cons_of_mem _ (h.used j x hx)
      · rw [List.mem_singleton.mp hx]
        exact List.mem_cons_self ..
    · rw [Function.update_of_ne hji] at hx
      exact List.mem_cons_of_mem _ (h.used j x hx)
  · intro j
    have hd : Keyed (s.addEntry A i (V i).getLast? msg).key (V j) :=
      (h.distinct j).congr fun x hx => hkey hx
    by_cases hji : j = i
    · subst hji
      rw [Function.update_self]
      refine hd.concat fun y hy => ?_
      rw [hkey hy, hself]
      exact find?_key_eq_none.mp hf y hy
    · rw [Function.update_of_ne hji]
      exact hd
  · intro cmd j hj
    have hl := h.lookup cmd j hj
    simp only [ircStrcmp_eq_zero_iff]
    by_cases hji : j = i
    · subst hji
      rw [Function.update_self, find?_concat_key, hself]
      by_cases hc : foldName (s.message msg).cmd = foldName cmd
      · rw [if_pos hc, if_pos hc]
        rw [hc] at hf
        rw [hf] at hl
        rw [find?_key_congr fun x hx => hkey hx, hf, ← hl]
        exact congrArg some (Function.update_self ..)
      · rw [if_neg hc, if_neg hc, Option.or_none, hold, hl]
    · have hc : foldName (s.message msg).cmd ≠ foldName cmd := by
        intro hc
        rw [hash_congr (ircStrcmp_eq_zero_iff.mpr hc), hi] at hj
        exact hji (Except.ok.inj hj).symm
      rw [Function.update_of_ne hji, if_neg hc, hold, hl]

/-- The entry of a name is taken out. -/
theorem delEntry (h : HoldsIn V s f) {i x : Nat} {as bs : List Nat} {string : List UInt8}
    (hi : hash string = .ok i) (hv : V i = as ++ x :: bs)
    (hx : s.key x = foldName string) :
    Holds (s.delEntry i as.getLast? x) fun cmd =>
      if ircStrcmp cmd string = 0 then none else f cmd := by
  have hd := h.distinct i
  rw [hv] at hd
  refine ⟨update V i (as ++ bs), h.chains.unlinkAfter hv, ?_, ?_, ?_⟩
  · intro j y hy
    have hyx : y ∈ V j ∧ y ≠ x := by
      by_cases hji : j = i
      · subst hji
        rw [Function.update_self] at hy
        refine ⟨?_, fun e => hd.ne_of_mem_remove hy (by rw [e])⟩
        rw [hv]
        exact (List.Sublist.append_left (List.sublist_cons_self x bs) as).subset hy
      · rw [Function.update_of_ne hji] at hy
        refine ⟨hy, fun e => hji (h.chains.apart (x := x) ?_ ?_)⟩
        · rw [← e]; exact hy
        · rw [hv]; simp
    exact (List.mem_erase_of_ne hyx.2).mpr (h.used j y hyx.1)
  · intro j
    by_cases hji : j = i
    · subst hji
      rw [Function.update_self]
      exact hd.remove
    · rw [Function.update_of_ne hji]
      exact h.distinct j
  · intro cmd j hj
    have hl := h.lookup cmd j hj
    simp only [ircStrcmp_eq_zero_iff, ← hx]
    by_cases hji : j = i
    · subst hji
      rw [Function.update_self]
      refine (congrArg _ hd.find?_remove).trans ?_
      by_cases hc : s.key x = foldName cmd
      · rw [if_pos hc.symm, if_pos hc]; rfl
      · rw [if_neg (Ne.symm hc), if_neg hc, ← hv]; exact hl
    · have hc : s.key x ≠ foldName cmd := by
        intro hc
        rw [hash_congr (ircStrcmp_eq_zero_iff.mpr (hx ▸ hc)), hi] at hj
        exact hji (Except.ok.inj hj).symm
      rw [Function.update_of_ne hji, if_neg hc]
      exact hl

end HoldsIn

theorem ok_or_overflows (cmd : List UInt8) :
    (∃ i, hash cmd = .ok i) ∨ (Overflows cmd ∧ hash cmd = .error .intOverflow) := by
  rw [hash_eq]
  split
  · exact Or.inl ⟨_, rfl⟩
  · next h => exact Or.inr ⟨Nat.lt_of_not_le h, rfl⟩

theorem Holds.modAddCmd (h : Holds s f) (A : Allocator) (msg : Nat) :
    Answers (fun s' => Holds s' fun cmd => if ircStrcmp cmd (s.message msg).cmd = 0 then
        (f cmd).or (some msg) else f cmd)
      (fun _ => Overflows (s.message msg).cmd) (modAddCmd A msg s) := by
  obtain ⟨V, h⟩ := h
  rw [CommandSt.modAddCmd]
  rcases ok_or_overflows (s.message msg).cmd with ⟨i, hi⟩ | ⟨ho, he⟩
  · rw [hi]
    simp only [Except.map, Answers]
    cases hf : (V i).find? fun x => s.key x = foldName (s.message msg).cmd with
    | none =>
        rw [h.seek_none hf]
        exact h.addEntry A hi hf
    | some x =>
        -- A name that is there keeps its message.
        obtain ⟨as, bs, -, hs, -⟩ := h.seek_some hf
        rw [hs]
        refine ⟨V, h.congr fun cmd => ?_⟩
        split
        · next hc =>
            have hl := h.lookup cmd i (by rw [hash_congr hc, hi])
            rw [← ircStrcmp_eq_zero_iff.mp hc, hf] at hl
            rw [← hl]
            rfl
        · rfl
  · rw [he]
    exact ho

theorem Holds.delName (h : Holds s f) (string : List UInt8) :
    Answers (fun s' => Holds s' fun cmd => if ircStrcmp cmd string = 0 then none else f cmd)
      (fun _ => Overflows string) (delName string s) := by
  obtain ⟨V, h⟩ := h
  rw [CommandSt.delName]
  rcases ok_or_overflows string with ⟨i, hi⟩ | ⟨ho, he⟩
  · rw [hi]
    simp only [Except.map, Answers]
    cases hf : (V i).find? fun x => s.key x = foldName string with
    | none =>
        rw [h.seek_none hf]
        refine ⟨V, h.congr fun cmd => ?_⟩
        split
        · next hc =>
            have hl := h.lookup cmd i (by rw [hash_congr hc, hi])
            rw [← ircStrcmp_eq_zero_iff.mp hc, hf] at hl
            exact hl
        · rfl
    | some x =>
        obtain ⟨as, bs, hv, hs, hx⟩ := h.seek_some hf
        rw [hs]
        exact h.delEntry hi hv hx
  · rw [he]
    exact ho

/-! ## Runs -/

theorem step_message {A : Allocator} {s s' : CommandSt} {op : CommandOp}
    (hs : step A s op = .ok s') (m : Nat) : (s'.message m).cmd = (s.message m).cmd := by
  cases op with
  | add msg =>
      obtain ⟨i, -, he⟩ := map_ok_iff.mp hs
      subst he
      split
      · rfl
      · simp only [CommandSt.addEntry, Function.update_apply]
        split
        · next hm => rw [hm]
        · rfl
  | delCmd msg =>
      obtain ⟨i, -, he⟩ := map_ok_iff.mp hs
      subst he
      split <;> rfl
  | delMsg string =>
      cases string with
      | none => cases hs; rfl
      | some string =>
          obtain ⟨i, -, he⟩ := map_ok_iff.mp hs
          subst he
          split <;> rfl

/-- One call changes the map as the history does. -/
theorem step_holds (A : Allocator) (message : Nat → Message)
    (hm : ∀ m, (s.message m).cmd = (message m).cmd) (h : Holds s f) (op : CommandOp) :
    Answers (fun s' => Holds s' fun cmd => op.apply message cmd (f cmd))
      (fun _ => ∃ string, op.name message = some string ∧ Overflows string)
      (step A s op) := by
  cases op with
  | add msg =>
      have ha := h.modAddCmd A msg
      rw [hm] at ha
      exact ha.imp (fun _ hs => hs) fun _ ho => ⟨_, rfl, ho⟩
  | delCmd msg =>
      have ha := h.delName (s.message msg).cmd
      rw [hm] at ha
      simp only [step, modDelCmd, hm]
      exact ha.imp (fun _ hs => hs) fun _ ho => ⟨_, rfl, ho⟩
  | delMsg string =>
      cases string with
      | none => exact h
      | some string => exact (h.delName string).imp (fun _ hs => hs) fun _ ho => ⟨_, rfl, ho⟩

theorem run_holds (A : Allocator) (message : Nat → Message) (ops : List CommandOp) :
    ∀ {s : CommandSt} {f : List UInt8 → Option Nat},
      (∀ m, (s.message m).cmd = (message m).cmd) → Holds s f →
      Answers (fun s' => Holds s' fun cmd => latestFrom message ops cmd (f cmd))
        (fun _ => ∃ op ∈ ops, ∃ string, op.name message = some string ∧ Overflows string)
        (run (step A) s ops) := by
  induction ops with
  | nil => exact fun _ h => h
  | cons op ops ih =>
      intro s f hm h
      have hs := step_holds A message hm h op
      rw [run]
      cases he : step A s op with
      | error e =>
          rw [he] at hs
          exact ⟨op, List.mem_cons_self .., hs⟩
      | ok m =>
          rw [he] at hs
          refine (ih (fun n => (step_message he n).trans (hm n)) hs).imp (fun _ h' => h') ?_
          intro e hex
          obtain ⟨op', hop, ho⟩ := hex
          exact ⟨op', List.mem_cons_of_mem _ hop, ho⟩

/-- After any history, looking a name up gives what the history says it
stands for; only a name whose bytes sum up past `int` stops the run or the
lookup. -/
theorem hashParse_latest (A : Allocator) (message : Nat → Message) (ops : List CommandOp)
    (cmd : List UInt8) :
    Answers
      (fun s => Answers (· = latest message ops cmd) (fun _ => Overflows cmd)
        (hashParse cmd s))
      (fun _ => ∃ op ∈ ops, ∃ string, op.name message = some string ∧ Overflows string)
      (run (step A) (cleared message) ops) := by
  refine (run_holds A message ops (fun _ => rfl) (cleared_holds message)).imp ?_
    fun _ ho => ho
  rintro s ⟨V, hV⟩
  rcases ok_or_overflows cmd with ⟨i, hi⟩ | ⟨ho, he⟩
  · rw [hV.hashParse hi]
    rfl
  · rw [hashParse, he]
    exact ho

end CommandSt

end TrIrcd
