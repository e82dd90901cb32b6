import Mathlib.Data.List.Nodup
import TrIrcd.Lib.Run
import TrIrcd.Src.Optparse

/-!
# What the command line sets

An option names one item of the table (`CmdOption.named_iff`), so a pass over
the table does what that item says, and what it leaves of the arguments is the
value it took, if any, which names nothing (`optScan_option`). The loop then
performs the options one after the other (`commandLoop_options`), and never
looks behind the last argument.

What goes wrong is the copying. The storage of a string is one byte short, and
that of the bind address is bounded (`performAll_ok_iff`). An option that ends
the server keeps what follows it from being copied.
-/

namespace TrIrcd

open TrIrcd.Lib

/-! ## Options -/

/-- An option as it is written: an item of the table in its short form, or by a
name that is equal to its own, and a value for those that take one. -/
structure CmdOption where
  item : OptItem
  listed : item ∈ parseopts
  name : Option (List UInt8)
  equal : ∀ n ∈ name, ircStrcmp n item.optname = 0
  value : List UInt8
  plain : value.headD 0 ≠ 0x2d

namespace CmdOption

variable (o : CmdOption)

def type : OptType := o.item.opttype

def text : List UInt8 :=
  match o.name with
  | none => [0x2d, o.item.optchar]
  | some n => 0x2d :: 0x2d :: n

def args : List (List UInt8) :=
  if o.type.takesValue then [o.text, o.value] else [o.text]

/-- What the `switch` makes of an option: the state behind it, unless the server
ends there. -/
def perform (s : OptSt) : Except OptFault (Option OptSt) :=
  if o.type.takesValue then (setValue o.type o.value s).map some
  else
    match o.type with
    | .foreground => .ok (some { s with foreground := true })
    | .smallnet => .ok (some { s with smallnet := true })
    | .root => .ok (some { s with optRoot := true })
    | .webconfig => .ok (some { s with webconfig := true })
    | .log => .ok (some { s with enableLogging := true })
    | _ => .ok none

theorem optchar_ne : ∀ item ∈ parseopts, item.optchar ≠ 0x2d := by decide

theorem optchar_inj : ∀ item ∈ parseopts, ∀ item' ∈ parseopts,
    item.optchar = item'.optchar → item = item' := by decide

theorem optname_inj : ∀ item ∈ parseopts, ∀ item' ∈ parseopts,
    ircStrcmp item.optname item'.optname = 0 → item = item' := by decide

theorem named_short {item : OptItem} {c : UInt8} (hc : c ≠ 0x2d) :
    item.named [0x2d, c] = true ↔ c = item.optchar := by simp [OptItem.named, hc]

theorem named_long {item : OptItem} {n : List UInt8} :
    item.named (0x2d :: 0x2d :: n) = true ↔ ircStrcmp n item.optname = 0 := by
  simp [OptItem.named]

/-- An option names its own item. -/
theorem named_iff {item : OptItem} (h : item ∈ parseopts) :
    item.named o.text = true ↔ item = o.item := by
  cases hn : o.name with
  | none =>
      rw [text, hn]
      refine (named_short (optchar_ne _ o.listed)).trans ⟨fun he => ?_, fun he => ?_⟩
      · exact optchar_inj item h _ o.listed he.symm
      · rw [he]
  | some n =>
      have hown := o.equal n hn
      rw [text, hn]
      refine named_long.trans ⟨fun he => ?_, fun he => ?_⟩
      · exact (optname_inj _ o.listed item h (ircStrcmp_trans hown he)).symm
      · rw [he]
        exact hown

theorem named_value (item : OptItem) : item.named o.value = false := by
  rw [OptItem.named, Bool.and_eq_false_iff]
  exact Or.inl (decide_eq_false o.plain)

end CmdOption

/-! ## The loops -/

theorem optScan_skip {items : List OptItem} {text : List UInt8} {rest : List (List UInt8)}
    {s : OptSt} (h : ∀ item ∈ items, item.named text = false) :
    optScan items (text :: rest) s = .ok (.next (text :: rest) s) := by
  induction items with
  | nil => rfl
  | cons item items ih =>
      rw [optScan, h item (List.mem_cons_self ..), if_neg Bool.false_ne_true]
      exact ih fun x hx => h x (List.mem_cons_of_mem _ hx)

/-- The items before the one that is named are passed over. -/
theorem optScan_named {as bs : List OptItem} {item : OptItem} {text : List UInt8}
    {rest : List (List UInt8)} {s : OptSt} (has : ∀ x ∈ as, x.named text = false)
    (hi : item.named text = true) :
    optScan (as ++ item :: bs) (text :: rest) s =
      (optSwitch item.opttype (text :: rest) s).bind (OptNext.andThen (optScan bs)) := by
  induction as with
  | nil => rw [List.nil_append, optScan, if_pos hi]
  | cons a as ih =>
      rw [List.cons_append, optScan, has a (List.mem_cons_self ..), if_neg Bool.false_ne_true]
      exact ih fun x hx => has x (List.mem_cons_of_mem _ hx)

namespace CmdOption

variable (o : CmdOption)

/-- The argument at which a pass over the table ends. -/
def last : List UInt8 := if o.type.takesValue then o.value else o.text

/-- What a pass over the table, or the loop, makes of what an option does. -/
def outcome (go : OptSt → Except OptFault OptNext) (s : OptSt) : Except OptFault OptNext :=
  (o.perform s).bind fun
    | some s' => go s'
    | none => .ok (.done (.exit (-1) s))

theorem args_eq : ∃ rest, o.args = o.text :: rest := by
  rw [args]
  split
  · exact ⟨_, rfl⟩
  · exact ⟨_, rfl⟩

theorem optSwitch_option (more : List (List UInt8)) (s : OptSt) :
    optSwitch o.type (o.args ++ more) s =
      o.outcome (fun s' => .ok (.next (o.last :: more) s')) s := by
  rw [outcome, perform, optSwitch.eq_def, args, last]
  by_cases hv : o.type.takesValue = true
  · simp only [hv, if_true, List.cons_append, List.nil_append, List.tail_cons]
    cases setValue o.type o.value s <;> rfl
  · simp only [hv, Bool.false_eq_true, if_false]
    cases o.type <;> rfl

/-- One pass of the table, at an option. -/
theorem optScan_option (more : List (List UInt8)) (s : OptSt) :
    optScan parseopts (o.args ++ more) s =
      o.outcome (fun s' => .ok (.next (o.last :: more) s')) s := by
  obtain ⟨as, bs, htable⟩ := List.append_of_mem o.listed
  have hnodup : parseopts.Nodup := by decide
  obtain ⟨rest, hargs⟩ := o.args_eq
  have hother : ∀ item ∈ parseopts, item ≠ o.item → item.named o.text = false := fun item hi hne =>
    Bool.eq_false_iff.mpr fun hn => hne ((o.named_iff hi).mp hn)
  have hne : ∀ item ∈ as ++ bs, item.named o.text = false := by
    intro item hi
    rw [htable] at hnodup
    refine hother item ?_ fun he => ?_
    · rw [htable]
      rcases List.mem_append.mp hi with hi | hi
      · exact List.mem_append_left _ hi
      · exact List.mem_append_right _ (List.mem_cons_of_mem _ hi)
    · rw [he] at hi
      exact (List.nodup_cons.mp (List.nodup_middle.mp hnodup)).1 hi
  have hbs : ∀ item ∈ bs, item.named o.last = false := by
    intro item hi
    rw [last]
    split
    · exact o.named_value item
    · exact hne item (List.mem_append_right _ hi)
  have hpass : optScan (as ++ o.item :: bs) (o.args ++ more) s =
      (optSwitch o.type (o.args ++ more) s).bind (OptNext.andThen (optScan bs)) := by
    rw [hargs, List.cons_append]
    exact optScan_named (fun item hi => hne item (List.mem_append_left _ hi))
      ((o.named_iff o.listed).mpr rfl)
  rw [htable, hpass, o.optSwitch_option, outcome]
  cases o.perform s with
  | error fault => rfl
  | ok r =>
      cases r with
      | none => rfl
      | some s' => exact optScan_skip hbs

/-- The options one after the other, up to one that ends the server. -/
def performAll : List CmdOption → OptSt → Except OptFault OptNext
  | [], s => .ok (.next [] s)
  | o :: opts, s => o.outcome (performAll opts) s

theorem commandLoop_options (opts : List CmdOption) :
    ∀ {fuel : Nat} {s : OptSt}, (opts.flatMap args).length ≤ fuel →
      commandLoop fuel (opts.flatMap args) s = performAll opts s := by
  induction opts with
  | nil =>
      intro fuel s _
      cases fuel <;> rfl
  | cons o opts ih =>
      intro fuel s hlen
      rw [List.flatMap_cons, List.length_append] at hlen
      obtain ⟨rest, hargs⟩ := o.args_eq
      have hpass : commandLoop fuel (o.args ++ opts.flatMap args) s =
          (optScan parseopts (o.args ++ opts.flatMap args) s).bind
            (OptNext.andThen fun rest s => commandLoop (fuel - 1) rest.tail s) := by
        cases fuel with
        | zero =>
            rw [hargs, List.length_cons] at hlen
            omega
        | succ fuel =>
            rw [hargs]
            rfl
      have hfuel : (opts.flatMap args).length ≤ fuel - 1 := by
        rw [hargs, List.length_cons] at hlen
        omega
      rw [List.flatMap_cons, hpass, optScan_option, outcome, performAll, outcome]
      cases o.perform s with
      | error fault => rfl
      | ok r =>
          cases r with
          | none => rfl
          | some s' => exact ih hfuel

/-! ## What is copied -/

/-- An option that ends the server. -/
def exits : Bool := o.type = .none || o.type = .usage

/-- There is room for what the option copies. -/
def Fits : Prop :=
  match o.type with
  | .string _ => False
  | .webconfigBind => o.value.length < hostIpLen
  | _ => True

/-- So there is for all options up to one that ends the server. -/
def AllFit (opts : List CmdOption) : Prop :=
  ∀ o ∈ opts.takeWhile fun o => !o.exits, o.Fits

theorem strcpyInto_eq_error {arg : List UInt8} : strcpyInto arg.length arg = .error .overrun :=
  if_neg (by omega)

/-- An option that fits ends the server or is set, and any other is not. -/
theorem perform_cases (s : OptSt) :
    (¬ o.Fits ∧ o.exits = false ∧ o.perform s = .error .overrun) ∨
      (o.Fits ∧ o.exits = true ∧ o.perform s = .ok none) ∨
      o.Fits ∧ o.exits = false ∧ ∃ s', o.perform s = .ok (some s') ∧ s'.past = s.past := by
  rw [perform, Fits, exits]
  generalize o.type = type
  cases type with
  | string element =>
      refine Or.inl ⟨not_false, rfl, ?_⟩
      show (setElement element o.value s).map some = _
      rw [setElement, strcpyInto_eq_error]
      rfl
  | webconfigBind =>
      by_cases hfits : o.value.length < hostIpLen
      · refine Or.inr (Or.inr ⟨hfits, rfl, { s with wbind := o.value }, ?_, rfl⟩)
        show ((strcpyInto hostIpLen o.value).map _).map some = _
        rw [strcpyInto, if_pos (Nat.succ_le_of_lt hfits)]
        rfl
      · refine Or.inl ⟨hfits, rfl, ?_⟩
        show ((strcpyInto hostIpLen o.value).map _).map some = _
        rw [strcpyInto, if_neg fun hle => hfits (Nat.lt_of_succ_le hle)]
        rfl
  | none | usage => exact Or.inr (Or.inl ⟨trivial, rfl, rfl⟩)
  | debug | maxclients | webconfigPort | foreground | log | webconfig | root | smallnet =>
      exact Or.inr (Or.inr ⟨trivial, rfl, _, rfl, rfl⟩)

theorem allFit_nil : AllFit [] := fun _ ho => nomatch ho

theorem allFit_cons {o : CmdOption} {opts : List CmdOption} :
    AllFit (o :: opts) ↔ o.exits = true ∨ o.Fits ∧ AllFit opts := by
  rw [AllFit, AllFit, List.takeWhile_cons]
  cases o.exits with
  | true => simp
  | false => simp

end CmdOption

/-! ## What is left -/

open CmdOption (AllFit)

/-- The last value for an option. -/
def lastValue (type : OptType) (opts : List CmdOption) : Option (List UInt8) :=
  ((opts.filter fun o => o.type = type).getLast?).map CmdOption.value

def present (type : OptType) (opts : List CmdOption) : Bool := opts.any fun o => o.type = type

/-- Every option has its last value, and the flags are set that are given. -/
structure Left (s₀ : OptSt) (opts : List CmdOption) (s : OptSt) : Prop where
  dpath : s.dpath = (lastValue (.string .dpath) opts).or s₀.dpath
  configfile : s.configfile = (lastValue (.string .configfile) opts).or s₀.configfile
  debuglevel : s.debuglevel = ((lastValue .debug opts).map atoi).getD s₀.debuglevel
  maxclients : s.maxclients = ((lastValue .maxclients opts).map atoi).getD s₀.maxclients
  wport : s.wport = ((lastValue .webconfigPort opts).map atoi).getD s₀.wport
  wbind : s.wbind = (lastValue .webconfigBind opts).getD s₀.wbind
  foreground : s.foreground = (s₀.foreground || present .foreground opts)
  smallnet : s.smallnet = (s₀.smallnet || present .smallnet opts)
  enableLogging : s.enableLogging = (s₀.enableLogging || present .log opts)
  webconfig : s.webconfig = (s₀.webconfig || present .webconfig opts)
  optRoot : s.optRoot = (s₀.optRoot || present .root opts)

theorem left_nil (s : OptSt) : Left s [] s := by
  constructor <;> simp [lastValue, present]

theorem lastValue_cons (type : OptType) (o : CmdOption) (opts : List CmdOption) :
    lastValue type (o :: opts) =
      (lastValue type opts).or (if o.type = type then some o.value else none) := by
  by_cases ho : o.type = type
  · simp only [lastValue, List.filter_cons, ho, decide_true, if_true, List.getLast?_cons]
    cases (opts.filter fun o => o.type = type).getLast? <;> rfl
  · simp only [lastValue, List.filter_cons, ho, decide_false, Bool.false_eq_true, if_false,
      Option.or_none]

theorem present_cons (type : OptType) (o : CmdOption) (opts : List CmdOption) :
    present type (o :: opts) = (decide (o.type = type) || present type opts) := List.any_cons

theorem Left.cons {s₀ s₁ s : OptSt} {o : CmdOption} {opts : List CmdOption}
    (hp : o.perform s₀ = .ok (some s₁)) (h : Left s₁ opts s) : Left s₀ (o :: opts) s := by
  rw [CmdOption.perform] at hp
  cases ht : o.type with
  | string element =>
      rw [ht] at hp
      change (setElement element o.value s₀).map some = _ at hp
      rw [setElement, CmdOption.strcpyInto_eq_error] at hp
      cases hp
  | webconfigBind =>
      rw [ht] at hp
      change ((strcpyInto hostIpLen o.value).map _).map some = _ at hp
      rw [strcpyInto] at hp
      split at hp
      · cases hp
        constructor <;> simp [lastValue_cons, present_cons, ht, h.dpath, h.configfile,
          h.debuglevel, h.maxclients, h.wport, h.wbind, h.foreground, h.smallnet,
          h.enableLogging, h.webconfig, h.optRoot]
      · cases hp
  | none | usage =>
      rw [ht] at hp
      cases hp
  | debug | maxclients | webconfigPort | foreground | log | webconfig | root | smallnet =>
      rw [ht] at hp
      cases hp
      constructor <;> simp [lastValue_cons, present_cons, ht, h.dpath, h.configfile,
          h.debuglevel, h.maxclients, h.wport, h.wbind, h.foreground, h.smallnet,
          h.enableLogging, h.webconfig, h.optRoot]

/-- The options as a whole: there is not room for all of them, or what they say
is done, or the server ends. -/
theorem performAll_cases (opts : List CmdOption) (s : OptSt) :
    (¬ AllFit opts ∧ CmdOption.performAll opts s = .error .overrun) ∨
      AllFit opts ∧ ∃ s', s'.past = s.past ∧
        (CmdOption.performAll opts s = .ok (.next [] s') ∧ Left s opts s' ∨
          CmdOption.performAll opts s = .ok (.done (.exit (-1) s'))) := by
  induction opts generalizing s with
  | nil => exact Or.inr ⟨CmdOption.allFit_nil, s, rfl, Or.inl ⟨rfl, left_nil s⟩⟩
  | cons o opts ih =>
      rw [CmdOption.allFit_cons, CmdOption.performAll, CmdOption.outcome]
      rcases o.perform_cases s with ⟨hfits, hexits, hp⟩ | ⟨hfits, hexits, hp⟩ |
        ⟨hfits, hexits, s₁, hp, hpast⟩
      · rw [hp, hexits]
        exact Or.inl ⟨by simp [hfits], rfl⟩
      · rw [hp, hexits]
        exact Or.inr ⟨Or.inl rfl, s, rfl, Or.inr rfl⟩
      · rw [hp, hexits]
        simp only [Bool.false_eq_true, false_or, hfits, true_and]
        rcases ih s₁ with ⟨hall, he⟩ | ⟨hall, s', hpast', he⟩
        · exact Or.inl ⟨hall, he⟩
        · refine Or.inr ⟨hall, s', hpast'.trans hpast, ?_⟩
          exact he.imp (fun hn => ⟨hn.1, Left.cons hp hn.2⟩) id

/-- The tests at the end set nothing that an option has set. -/
theorem checkOptions_cases (euid : Nat) (s : OptSt) :
    ∃ port bind, (checkOptions euid s).state =
      { s with webconfigport := port, webconfigbind := bind } := by
  rw [checkOptions]
  split
  · exact ⟨_, _, rfl⟩
  · split
    · exact ⟨_, _, rfl⟩
    · dsimp only
      split
      · split <;> exact ⟨_, _, rfl⟩
      · split <;> exact ⟨_, _, rfl⟩

/-- The command line sets what it says, and reads no argument behind the last,
if and only if the strings it copies have room. -/
theorem commandLine_sets_iff (euid : Nat) (prog : List UInt8) (opts : List CmdOption)
    (s₀ : OptSt) :
    (∃ result, processCommandline euid (prog :: opts.flatMap CmdOption.args) s₀ = .ok result ∧
      result.state.past = s₀.past ∧ ∀ s, result = .ret s → Left s₀ opts s) ↔ AllFit opts := by
  have hlen : (opts.flatMap CmdOption.args).length ≤
      (prog :: opts.flatMap CmdOption.args).length := Nat.le_succ _
  rw [processCommandline, List.tail_cons, CmdOption.commandLoop_options opts hlen]
  rcases performAll_cases opts s₀ with ⟨hno, he⟩ | ⟨hall, s', hpast, ⟨he, hleft⟩ | he⟩ <;> rw [he]
  · exact iff_of_false (fun ⟨_, h, _⟩ => nomatch h) hno
  · obtain ⟨port, bind, hcheck⟩ := checkOptions_cases euid s'
    refine iff_of_true ⟨_, rfl, ?_, fun s hs => ?_⟩ hall
    · show (checkOptions euid s').state.past = _
      rw [hcheck]
      exact hpast
    · have hret : checkOptions euid s' = .ret s := hs
      rw [hret] at hcheck
      have hstate : s = { s' with webconfigport := port, webconfigbind := bind } := hcheck
      rw [hstate]
      exact ⟨hleft.dpath, hleft.configfile, hleft.debuglevel, hleft.maxclients, hleft.wport,
        hleft.wbind, hleft.foreground, hleft.smallnet, hleft.enableLogging, hleft.webconfig,
        hleft.optRoot⟩
  · exact iff_of_true ⟨_, rfl, hpast, fun _ hs => nomatch hs⟩ hall

/-- Nothing set. -/
def freshOpts : OptSt :=
  ⟨none, none, false, false, false, false, false, 0, 0, 0, [], 0, none, false⟩

/-- `ircd -d /e` -/
theorem dirpath_overruns :
    processCommandline 1000 [[0x69, 0x72, 0x63, 0x64], [0x2d, 0x64], [0x2f, 0x65]] freshOpts =
      .error .overrun := by decide

end TrIrcd
