import TrIrcd.Src.Hunt
import TrIrcd.Proofs.NameTable

/-!
# Whom the usage loop of `next_client` visits

When no client has the mask for a name, `next_client` goes on from where it
is, and the loop visits the clients that match, in order. When one has, it
jumps to that client from anywhere but itself and its successor (`jump`): the
`prev` test takes the successor for the end. So the loop visits the named
client, and before it at most one more, the first that matches, if the named
client is first in the list and does not match itself (`hitVisits`). At the
end of the list there is no successor, and the loop comes back to the named
client for ever.

`next_client_double` does the same when a client has the mask for a name. It
does not go on from where it is when none has, and stops at once.
-/

namespace TrIrcd

open TrIrcd.Lib

namespace ClientList

/-- The list and the table hold `clients`, and no two of them have one name. -/
structure Lists (S : ClientList) (clients : List Nat) : Prop where
  dlist : IsDlist S.next S.prev S.globalClientList clients.getLast? clients
  count : clients.length ≤ S.count
  indexed : Indexed (fun c => (strhash S.ircdRandomKey (S.name c)).toNat) S.clientTable clients
  distinct : ∀ c ∈ clients, ∀ d ∈ clients, ircStrcmp (S.name c) (S.name d) = 0 → c = d

/-- The loop ends, and visits each client with the property once. -/
def Visits (S : ClientList) (nextClient : Option Nat → Option Nat) (clients : List Nat)
    (p : Nat → Prop) : Prop :=
  ∃ fuel visited, S.usageLoop nextClient fuel S.globalClientList = some visited ∧
    visited.Nodup ∧ ∀ c, c ∈ visited ↔ c ∈ clients ∧ p c

section Loop

variable {S : ClientList} {nextClient : Option Nat → Option Nat}

theorem usageLoop_cons {fuel : Nat} {x : Option Nat} {c : Nat} (h : nextClient x = some c) :
    S.usageLoop nextClient (fuel + 1) x =
      (S.usageLoop nextClient fuel (S.next c)).map (c :: ·) := by
  rw [usageLoop, h]

theorem usageLoop_end {fuel : Nat} {x : Option Nat} (h : nextClient x = none) :
    S.usageLoop nextClient (fuel + 1) x = some [] := by
  rw [usageLoop, h]

/-- More fuel changes nothing once the loop has ended. -/
theorem usageLoop_mono {fuel : Nat} :
    ∀ {fuel' : Nat} {x : Option Nat} {v : List Nat},
      S.usageLoop nextClient fuel x = some v → fuel ≤ fuel' →
      S.usageLoop nextClient fuel' x = some v := by
  induction fuel with
  | zero => exact fun h _ => by simp [usageLoop] at h
  | succ fuel ih =>
      intro fuel' x v h hle
      obtain ⟨fuel', rfl⟩ : ∃ n, fuel' = n + 1 := ⟨fuel' - 1, by omega⟩
      cases hx : nextClient x with
      | none =>
          rw [usageLoop_end hx] at h ⊢
          exact h
      | some c =>
          rw [usageLoop_cons hx, Option.map_eq_some_iff] at h ⊢
          obtain ⟨w, hw, rfl⟩ := h
          exact ⟨w, ih hw (by omega), rfl⟩

/-- What the loop visits does not depend on the fuel. -/
theorem usageLoop_unique {fuel fuel' : Nat} {x : Option Nat} {v v' : List Nat}
    (h : S.usageLoop nextClient fuel x = some v)
    (h' : S.usageLoop nextClient fuel' x = some v') : v = v' :=
  Option.some.inj ((usageLoop_mono h (Nat.le_add_right fuel fuel')).symm.trans
    (usageLoop_mono h' (Nat.le_add_left fuel' fuel)))

theorem visits_iff {clients : List Nat} {p : Nat → Prop} {fuel : Nat} {v : List Nat}
    (h : S.usageLoop nextClient fuel S.globalClientList = some v) :
    Visits S nextClient clients p ↔ v.Nodup ∧ ∀ c, c ∈ v ↔ c ∈ clients ∧ p c := by
  constructor
  · rintro ⟨fuel', v', hv', hnodup, hmem⟩
    rw [usageLoop_unique h hv']
    exact ⟨hnodup, hmem⟩
  · rintro ⟨hnodup, hmem⟩
    exact ⟨fuel, v, h, hnodup, hmem⟩

end Loop

/-! ## With a client of that name -/

section Hit

variable {S : ClientList} {clients as bs : List Nat} {tail : Option Nat} {hit : Nat}
  {p : Nat → Bool}

/-- `next_client` and `next_client_double` for a mask that is the name of
`hit`. -/
def jump (S : ClientList) (hit : Nat) (p : Nat → Bool) (x : Option Nat) : Option Nat :=
  if x ≠ none ∧ x.bind S.prev = some hit then none
  else if some hit ≠ x then some hit
  else findFrom S.next p S.count (some hit)

/-- Whom the loop visits then, if it ends. -/
def hitVisits (clients : List Nat) (hit : Nat) (p : Nat → Bool) : Option (List Nat) :=
  if clients.head? = some hit ∧ ¬p hit then
    some ((clients.find? p).elim [] fun m => [m, hit])
  else if clients.getLast? = some hit then none
  else some [hit]

section At

variable (hd : IsDlist S.next S.prev S.globalClientList tail (as ++ hit :: bs))
include hd

/-- Behind the named client the loop ends, unless nobody is behind it. -/
theorem usageLoop_behind (fuel : Nat) :
    S.usageLoop (jump S hit p) (fuel + 1) (S.next hit) = if bs = [] then none else some [] := by
  rw [hd.next_eq]
  cases bs with
  | nil =>
      rw [if_pos rfl]
      -- The jump from the end of the list leads back to it.
      have hjump : jump S hit p none = some hit := by simp [jump]
      have hend : S.next hit = none := hd.next_eq
      induction fuel with
      | zero => rw [List.head?_nil, usageLoop_cons hjump]; rfl
      | succ fuel ih =>
          rw [List.head?_nil, usageLoop_cons hjump, hend]
          rw [List.head?_nil] at ih
          rw [ih]
          rfl
  | cons y bs =>
      rw [if_neg (by simp), List.head?_cons]
      have hprev : S.prev y = some hit := by
        have hd' : IsDlist S.next S.prev S.globalClientList tail
            ((as ++ [hit]) ++ y :: bs) := by simpa using hd
        rw [hd'.prev_eq]
        simp
      exact usageLoop_end (by simp [jump, hprev])

/-- From elsewhere it goes to the named client first. -/
theorem usageLoop_away {x : Option Nat} (hx : x ≠ some hit) (hprev : x.bind S.prev ≠ some hit)
    (fuel : Nat) :
    S.usageLoop (jump S hit p) (fuel + 2) x = if bs = [] then none else some [hit] := by
  have hjump : jump S hit p x = some hit := by
    rw [jump, if_neg fun hb => hprev hb.2, if_pos hx.symm]
  rw [usageLoop_cons hjump, usageLoop_behind hd]
  split <;> rfl

end At

theorem prev_head (hd : IsDlist S.next S.prev S.globalClientList tail clients) {x : Nat}
    (hx : clients.head? = some x) : S.prev x = none := by
  cases hc : clients with
  | nil => rw [hc] at hx; cases hx
  | cons y ys =>
      rw [hc] at hx hd
      cases hx
      exact (show IsDlist S.next S.prev S.globalClientList tail ([] ++ x :: ys) from hd).prev_eq

/-- One before it, if the named client is first and something else matches. -/
theorem usageLoop_first (hd : IsDlist S.next S.prev S.globalClientList tail (hit :: bs)) {m : Nat}
    (hm : m ∈ bs) (fuel : Nat) :
    S.usageLoop (jump S hit p) (fuel + 2) (S.next m) = some [hit] := by
  obtain ⟨cs, ds, rfl⟩ := List.append_of_mem hm
  have hdm : IsDlist S.next S.prev S.globalClientList tail ((hit :: cs) ++ m :: ds) := hd
  have hnot : hit ∉ cs ++ m :: ds := (List.nodup_cons.mp hd.nodup).1
  have hne : cs ++ m :: ds ≠ [] := by simp
  have haway := @usageLoop_away S [] _ tail hit p hd (S.next m)
  rw [hdm.next_eq] at haway ⊢
  rw [haway ?_ ?_ fuel, if_neg hne]
  · cases ds with
    | nil => simp
    | cons y ds => simp at hnot ⊢; tauto
  · cases ds with
    | nil => simp
    | cons y ds =>
        have hdy : IsDlist S.next S.prev S.globalClientList tail
            ((hit :: cs ++ [m]) ++ y :: ds) := by simpa using hd
        have hmhit : m ≠ hit := fun he => hnot (by simp [he])
        rw [List.head?_cons, Option.bind_some, hdy.prev_eq, List.getLast?_concat]
        simpa using hmhit

/-- The loop ends exactly when `hitVisits` says whom it visits. -/
theorem usageLoop_hit
    (hd : IsDlist S.next S.prev S.globalClientList clients.getLast? clients)
    (hcount : clients.length ≤ S.count) (hhit : hit ∈ clients) (fuel : Nat) :
    S.usageLoop (jump S hit p) (fuel + 3) S.globalClientList = hitVisits clients hit p := by
  obtain ⟨as, bs, hsplit⟩ := List.append_of_mem hhit
  have hd' := hd
  rw [hsplit] at hd'
  have hhead : S.globalClientList = clients.head? := hd.1.head_eq
  have hlast : clients.getLast? = some hit ↔ bs = [] := by
    rw [hsplit, List.getLast?_append]
    cases bs with
    | nil => simp
    | cons y bs =>
        have hnodup := hd'.nodup
        simp only [List.nodup_append, List.nodup_cons] at hnodup
        have hmem : (y :: bs).getLast (by simp) ∈ y :: bs := List.getLast_mem _
        simp only [List.getLast?_cons_cons, List.getLast?_eq_some_getLast (List.cons_ne_nil y bs),
          Option.some_or, Option.some.injEq]
        refine iff_of_false (fun he => hnodup.2.1.1 (he ▸ hmem)) (by simp)
  rw [hitVisits]
  by_cases hfirst : clients.head? = some hit
  · -- The search goes through the list from the named client on.
    have hjump : jump S hit p S.globalClientList = clients.find? p := by
      rw [jump, hhead, hfirst, if_neg (by simp [prev_head hd hfirst]), if_neg (by simp), ← hfirst,
        ← hhead]
      exact findFrom_eq hd.1 hcount
    by_cases hp : p hit = true
    · have hfind : clients.find? p = some hit := by
        cases hc : clients with
        | nil => rw [hc] at hfirst; cases hfirst
        | cons y ys =>
            rw [hc] at hfirst
            cases hfirst
            rw [List.find?_cons, hp]
      rw [if_neg (by simp [hp]), usageLoop_cons (hjump.trans hfind),
        usageLoop_behind hd' (fuel + 1)]
      by_cases hbs : bs = []
      · rw [if_pos hbs, if_pos (hlast.mpr hbs)]; rfl
      · rw [if_neg hbs, if_neg fun hb => hbs (hlast.mp hb)]; rfl
    · rw [if_pos ⟨hfirst, by simpa using hp⟩]
      cases hfind : clients.find? p with
      | none => exact usageLoop_end (hjump.trans hfind)
      | some m =>
          have has : as = [] := by
            cases as with
            | nil => rfl
            | cons y as =>
                rw [hsplit] at hfirst
                cases hfirst
                have hnodup := hd'.nodup
                simp at hnodup
          subst has
          have hm : m ∈ bs := by
            have hin := List.mem_of_find?_eq_some hfind
            have hpm := List.find?_some hfind
            rw [hsplit] at hin
            rcases List.mem_cons.mp hin with rfl | hin
            · exact absurd hpm hp
            · exact hin
          rw [usageLoop_cons (hjump.trans hfind), usageLoop_first hd' hm fuel]
          rfl
  · -- The first jump is to the named client.
    rw [if_neg fun hb => hfirst hb.1, hhead]
    have haway := @usageLoop_away S as bs _ hit p hd' clients.head? hfirst
      (by
        cases hc : clients.head? with
        | none => simp
        | some x => simp [prev_head hd hc]) (fuel + 1)
    rw [haway]
    by_cases hbs : bs = []
    · rw [if_pos hbs, if_pos (hlast.mpr hbs)]
    · rw [if_neg hbs, if_neg fun hb => hbs (hlast.mp hb)]

end Hit

/-! ## Without one -/

section Miss

variable {S : ClientList} {clients : List Nat} {ch : List UInt8}

section At

variable (hd : IsDlist S.next S.prev S.globalClientList clients.getLast? clients)
  (hcount : clients.length ≤ S.count) (hmiss : S.find ch = none)
include hd hcount hmiss

/-- The search goes on from where it is. -/
theorem nextClient_miss {as bs : List Nat} (hsplit : clients = as ++ bs) :
    S.nextClient ch bs.head? = bs.find? fun c => ircMatch ch (S.name c) = 0 := by
  simp only [nextClient, hmiss, ↓reduceIte]
  cases bs with
  | nil =>
      rw [List.head?_nil, if_neg (by simp), if_neg (by simp)]
      cases S.count with
      | zero => rfl
      | succ n => rfl
  | cons c bs =>
      have hd' : IsDlist S.next S.prev S.globalClientList clients.getLast? (as ++ c :: bs) := by
        rw [← hsplit]
        exact hd
      have hprev : S.prev c ≠ some c := by
        rw [hd'.prev_eq]
        intro hlast
        have hnodup := hd'.nodup
        rw [List.nodup_append] at hnodup
        exact hnodup.2.2 c (List.mem_of_getLast? hlast) c (List.mem_cons_self ..) rfl
      have hchain : IsChain S.next (some c) (c :: bs) := ⟨rfl, hd'.1.suffix⟩
      have hlen : (c :: bs).length ≤ S.count := by
        rw [hsplit, List.length_append] at hcount
        omega
      rw [List.head?_cons, if_neg (by simpa using hprev), if_neg (by simp)]
      exact findFrom_eq hchain hlen

/-- So the loop visits the clients that match. -/
theorem usageLoop_miss (bs : List Nat) :
    ∀ {as : List Nat}, clients = as ++ bs → ∀ {fuel : Nat}, bs.length < fuel →
      S.usageLoop (S.nextClient ch) fuel bs.head? =
        some (bs.filter fun c => ircMatch ch (S.name c) = 0) := by
  induction bs with
  | nil =>
      intro as hsplit fuel hfuel
      obtain ⟨fuel, rfl⟩ : ∃ n, fuel = n + 1 := ⟨fuel - 1, by omega⟩
      exact usageLoop_end (nextClient_miss hd hcount hmiss hsplit)
  | cons c bs ih =>
      intro as hsplit fuel hfuel
      have hnext := nextClient_miss hd hcount hmiss hsplit
      have hsplit' : clients = (as ++ [c]) ++ bs := by simp [hsplit]
      obtain ⟨fuel, rfl⟩ : ∃ n, fuel = n + 1 := ⟨fuel - 1, by omega⟩
      rw [List.length_cons] at hfuel
      by_cases hc : ircMatch ch (S.name c) = 0
      · have hlink : S.next c = bs.head? := by
          rw [hsplit] at hd
          exact hd.next_eq
        rw [List.find?_cons_of_pos (by simpa using hc)] at hnext
        rw [usageLoop_cons hnext, hlink, ih hsplit' (by omega),
          List.filter_cons_of_pos (by simpa using hc)]
        rfl
      · -- The search passes over the client, so the next turn would have begun there.
        rw [List.find?_cons_of_neg (by simpa using hc)] at hnext
        rw [List.filter_cons_of_neg (by simpa using hc),
          ← @ih (as ++ [c]) hsplit' (fuel + 1) (by omega), usageLoop, usageLoop, hnext, nextClient_miss hd hcount hmiss hsplit']

omit hcount in
/-- `next_client_double` stops at once. -/
theorem usageLoop_double_miss (fuel : Nat) :
    S.usageLoop (S.nextClientDouble ch) (fuel + 1) S.globalClientList = some [] := by
  refine usageLoop_end ?_
  simp only [nextClientDouble, hmiss]
  cases hhead : S.globalClientList with
  | none =>
      rw [if_neg (by simp), if_neg (by simp)]
      cases S.count with
      | zero => rfl
      | succ n => rfl
  | some x =>
      have hfirst := hhead
      rw [hd.1.head_eq] at hfirst
      rw [if_pos ⟨by simp, by simp [prev_head hd hfirst]⟩]

end At

end Miss

/-! ## Both -/

/-- The mask is the name of a client, and `find_client` finds it. -/
def Named (S : ClientList) (clients : List Nat) (ch : List UInt8) (c : Nat) : Prop :=
  c ∈ clients ∧ ircStrcmp ch (S.name c) = 0 ∧ strhash S.ircdRandomKey ch ≠ 0

instance (S : ClientList) (clients : List Nat) (ch : List UInt8) (c : Nat) :
    Decidable (Named S clients ch c) := inferInstanceAs (Decidable (_ ∧ _))

theorem Lists.find_eq_some_iff {S : ClientList} {clients : List Nat} (h : S.Lists clients)
    {ch : List UInt8} {c : Nat} : S.find ch = some c ↔ Named S clients ch c := by
  constructor
  · intro hf
    obtain ⟨hc, hn⟩ := find_eq_some h.indexed hf
    refine ⟨hc, hn, fun h0 => ?_⟩
    rw [find, findClient, find_zero h0] at hf
    cases hf
  · rintro ⟨hc, hn, h0⟩
    obtain ⟨d, hd⟩ := find_isSome h.indexed h0 hc hn
    obtain ⟨hdm, hdn⟩ := find_eq_some h.indexed hd
    have hsame : ircStrcmp (S.name d) (S.name c) = 0 :=
      ircStrcmp_eq_zero.mpr ((ircStrcmp_eq_zero.mp hdn).symm.trans (ircStrcmp_eq_zero.mp hn))
    rw [h.distinct d hdm c hc hsame] at hd
    exact hd

/-- Whom `mask` matches. -/
def matched (S : ClientList) (ch : List UInt8) (c : Nat) : Bool := ircMatch ch (S.name c) = 0

/-- Who matches in one direction or the other. -/
def matchedDouble (S : ClientList) (ch : List UInt8) (c : Nat) : Bool :=
  ircMatch ch (S.name c) = 0 ∨ ircMatch (S.name c) ch = 0

section Both

variable {S : ClientList} {clients : List Nat} (h : S.Lists clients) {ch : List UInt8}
include h

theorem usageLoop_named {f : Option Nat → Option Nat} {p : Nat → Bool} {hit : Nat}
    (hhit : hit ∈ clients) (hf : ∀ x, f x = jump S hit p x) (fuel : Nat) :
    S.usageLoop f (fuel + 3) S.globalClientList = hitVisits clients hit p := by
  rw [funext hf]
  exact usageLoop_hit h.dlist h.count hhit fuel

theorem nextClient_named {hit : Nat} (hhit : Named S clients ch hit) (x : Option Nat) :
    S.nextClient ch x = jump S hit (S.matched ch) x := by
  simp only [nextClient, jump, h.find_eq_some_iff.mpr hhit]
  rfl

theorem nextClientDouble_named {hit : Nat} (hhit : Named S clients ch hit) (x : Option Nat) :
    S.nextClientDouble ch x = jump S hit (S.matchedDouble ch) x := by
  simp only [nextClientDouble, jump, h.find_eq_some_iff.mpr hhit]
  rfl

/-- With a named client, whom the loop should visit is whom it visits. -/
theorem visits_named {f : Option Nat → Option Nat} {p : Nat → Bool} {hit : Nat}
    (hhit : hit ∈ clients) (hf : ∀ x, f x = jump S hit p x) {want : Nat → Prop} :
    Visits S f clients want ↔ ∃ v, hitVisits clients hit p = some v ∧ v.Nodup ∧
      ∀ c, c ∈ v ↔ c ∈ clients ∧ want c := by
  have hrun := usageLoop_named h hhit hf
  cases hv : hitVisits clients hit p with
  | none =>
      refine iff_of_false ?_ (by simp)
      rintro ⟨fuel, v, hloop, -⟩
      have hmore := usageLoop_mono hloop (Nat.le_add_right fuel 3)
      rw [hrun, hv] at hmore
      cases hmore
  | some v =>
      rw [visits_iff ((hrun 0).trans hv)]
      simp

theorem named_iff {hit : Nat} (hhit : Named S clients ch hit) {c : Nat} (hc : c ∈ clients) :
    ircStrcmp ch (S.name c) = 0 ↔ c = hit := by
  constructor
  · intro hn
    exact h.distinct c hc hit hhit.1 (ircStrcmp_eq_zero.mpr
      ((ircStrcmp_eq_zero.mp hn).symm.trans (ircStrcmp_eq_zero.mp hhit.2.1)))
  · rintro rfl
    exact hhit.2.1

end Both

/-- When the loop of `next_client` is right. With a named client: it is the
only one that matches, and not the last of the list, or it is the first, does
not match itself, and just one does. Without one: nobody of that name is left
out by the match. -/
structure NextFits (S : ClientList) (clients : List Nat) (ch : List UInt8) : Prop where
  named : ∀ hit, Named S clients ch hit →
    if clients.head? = some hit ∧ ¬S.matched ch hit then
      ∃ m ∈ clients, S.matched ch m ∧ ∀ c ∈ clients, S.matched ch c → c = m
    else clients.getLast? ≠ some hit ∧ ∀ c ∈ clients, S.matched ch c → c = hit
  unnamed : (∀ hit, ¬Named S clients ch hit) →
    ∀ c ∈ clients, ircStrcmp ch (S.name c) = 0 → S.matched ch c

/-- When the loop of `next_client_double` is. -/
structure DoubleFits (S : ClientList) (clients : List Nat) (ch : List UInt8) : Prop where
  named : ∀ hit, Named S clients ch hit →
    if clients.head? = some hit ∧ ¬S.matchedDouble ch hit then
      ∀ c ∈ clients, ¬S.matchedDouble ch c
    else clients.getLast? ≠ some hit ∧ S.matchedDouble ch hit ∧
      ∀ c ∈ clients, S.matchedDouble ch c → c = hit
  unnamed : (∀ hit, ¬Named S clients ch hit) → ∀ c ∈ clients, ¬S.matchedDouble ch c

/-- Whom `hitVisits` names is the named client and those that match. -/
theorem hitVisits_next {clients : List Nat} {hit : Nat} {p : Nat → Bool} (hhit : hit ∈ clients) :
    (∃ v, hitVisits clients hit p = some v ∧ v.Nodup ∧
      ∀ c, c ∈ v ↔ c ∈ clients ∧ (c = hit ∨ p c = true)) ↔
    if clients.head? = some hit ∧ ¬p hit then
      ∃ m ∈ clients, p m ∧ ∀ c ∈ clients, p c → c = m
    else clients.getLast? ≠ some hit ∧ ∀ c ∈ clients, p c → c = hit := by
  rw [hitVisits]
  split
  · next hfirst =>
      cases hfind : clients.find? p with
      | none =>
          rw [List.find?_eq_none] at hfind
          refine iff_of_false ?_ ?_
          · rintro ⟨v, hv, -, hmem⟩
            cases hv
            simpa using (hmem hit).mpr ⟨hhit, .inl rfl⟩
          · rintro ⟨m, hm, hpm, -⟩
            exact hfind m hm hpm
      | some m =>
          have hm := List.mem_of_find?_eq_some hfind
          have hpm := List.find?_some hfind
          have hne : m ≠ hit := by
            rintro rfl
            exact hfirst.2 hpm
          constructor
          · rintro ⟨v, hv, -, hmem⟩
            cases hv
            refine ⟨m, hm, hpm, fun c hc hpc => ?_⟩
            rcases List.mem_cons.mp ((hmem c).mpr ⟨hc, .inr hpc⟩) with rfl | hlast
            · rfl
            · rw [List.mem_singleton.mp hlast] at hpc
              exact absurd hpc hfirst.2
          · rintro ⟨m', -, -, honly⟩
            obtain rfl := honly m hm hpm
            refine ⟨[m, hit], rfl, by simpa using hne, fun c => ?_⟩
            simp only [List.mem_cons, List.not_mem_nil, or_false]
            constructor
            · rintro (rfl | rfl)
              · exact ⟨hm, .inr hpm⟩
              · exact ⟨hhit, .inl rfl⟩
            · rintro ⟨hc, rfl | hpc⟩
              · exact .inr rfl
              · exact .inl (honly c hc hpc)
  · split
    · next hlast => exact iff_of_false (by simp) fun hb => hb.1 hlast
    · next hlast =>
        constructor
        · rintro ⟨v, hv, -, hmem⟩
          cases hv
          exact ⟨hlast, fun c hc hpc => List.mem_singleton.mp ((hmem c).mpr ⟨hc, .inr hpc⟩)⟩
        · rintro ⟨-, honly⟩
          refine ⟨[hit], rfl, List.nodup_singleton hit, fun c => ?_⟩
          rw [List.mem_singleton]
          constructor
          · rintro rfl
            exact ⟨hhit, .inl rfl⟩
          · rintro ⟨hc, rfl | hpc⟩
            · rfl
            · exact honly c hc hpc

/-- It is those that match. -/
theorem hitVisits_double {clients : List Nat} {hit : Nat} {p : Nat → Bool}
    (hhit : hit ∈ clients) :
    (∃ v, hitVisits clients hit p = some v ∧ v.Nodup ∧
      ∀ c, c ∈ v ↔ c ∈ clients ∧ p c = true) ↔
    if clients.head? = some hit ∧ ¬p hit then ∀ c ∈ clients, ¬p c
    else clients.getLast? ≠ some hit ∧ p hit ∧ ∀ c ∈ clients, p c → c = hit := by
  rw [hitVisits]
  split
  · next hfirst =>
      cases hfind : clients.find? p with
      | none =>
          rw [List.find?_eq_none] at hfind
          refine iff_of_true ⟨[], rfl, List.nodup_nil, fun c => ?_⟩ hfind
          simpa using fun hc => by simpa using hfind c hc
      | some m =>
          have hm := List.mem_of_find?_eq_some hfind
          refine iff_of_false ?_ fun hb => hb m hm (List.find?_some hfind)
          rintro ⟨v, hv, -, hmem⟩
          cases hv
          exact hfirst.2 ((hmem hit).mp (by simp)).2
  · split
    · next hlast => exact iff_of_false (by simp) fun hb => hb.1 hlast
    · next hlast =>
        constructor
        · rintro ⟨v, hv, -, hmem⟩
          cases hv
          exact ⟨hlast, ((hmem hit).mp (List.mem_singleton_self hit)).2,
            fun c hc hpc => List.mem_singleton.mp ((hmem c).mpr ⟨hc, hpc⟩)⟩
        · rintro ⟨-, hp, honly⟩
          refine ⟨[hit], rfl, List.nodup_singleton hit, fun c => ?_⟩
          rw [List.mem_singleton]
          constructor
          · rintro rfl
            exact ⟨hhit, hp⟩
          · exact fun hc => honly c hc.1 hc.2

section Fits

variable {S : ClientList} {clients : List Nat} (h : S.Lists clients) {ch : List UInt8}
include h

theorem nextClient_visits :
    Visits S (S.nextClient ch) clients
        (fun c => ircStrcmp ch (S.name c) = 0 ∨ ircMatch ch (S.name c) = 0) ↔
      NextFits S clients ch := by
  by_cases hnamed : ∃ hit, Named S clients ch hit
  · obtain ⟨hit, hhit⟩ := hnamed
    have hwant : ∀ c, (c ∈ clients ∧ (ircStrcmp ch (S.name c) = 0 ∨ ircMatch ch (S.name c) = 0)) ↔
        c ∈ clients ∧ (c = hit ∨ S.matched ch c = true) := by
      intro c
      refine and_congr_right fun hc => ?_
      rw [named_iff h hhit hc, matched, decide_eq_true_iff]
    rw [visits_named h hhit.1 (nextClient_named h hhit)]
    simp only [hwant]
    rw [hitVisits_next hhit.1]
    constructor
    · intro hfits
      refine ⟨fun hit' hhit' => ?_, fun hno => absurd hhit (hno hit)⟩
      rw [(named_iff h hhit hhit'.1).mp hhit'.2.1]
      exact hfits
    · exact fun hfits => hfits.named hit hhit
  · have hmiss : S.find ch = none := by
      cases hf : S.find ch with
      | none => rfl
      | some c => exact absurd ⟨c, h.find_eq_some_iff.mp hf⟩ hnamed
    have hloop := @usageLoop_miss S clients ch h.dlist h.count hmiss clients [] rfl
      (clients.length + 1) (Nat.lt_succ_self _)
    rw [← h.dlist.1.head_eq] at hloop
    rw [visits_iff hloop]
    constructor
    · rintro ⟨-, hmem⟩
      refine ⟨fun hit hhit => absurd ⟨hit, hhit⟩ hnamed, fun _ c hc hn => ?_⟩
      have hin := (hmem c).mpr ⟨hc, .inl hn⟩
      exact (List.mem_filter.mp hin).2
    · intro hfits
      refine ⟨h.dlist.nodup.filter _, fun c => ?_⟩
      rw [List.mem_filter, decide_eq_true_iff]
      constructor
      · exact fun hc => ⟨hc.1, .inr hc.2⟩
      · rintro ⟨hc, hn | hm⟩
        · have := hfits.unnamed (fun hit hhit => hnamed ⟨hit, hhit⟩) c hc hn
          exact ⟨hc, by simpa [matched] using this⟩
        · exact ⟨hc, hm⟩

theorem nextClientDouble_visits :
    Visits S (S.nextClientDouble ch) clients
        (fun c => ircMatch ch (S.name c) = 0 ∨ ircMatch (S.name c) ch = 0) ↔
      DoubleFits S clients ch := by
  have hwant : ∀ c, (c ∈ clients ∧ (ircMatch ch (S.name c) = 0 ∨ ircMatch (S.name c) ch = 0)) ↔
      c ∈ clients ∧ S.matchedDouble ch c = true := by
    intro c
    rw [matchedDouble, decide_eq_true_iff]
  by_cases hnamed : ∃ hit, Named S clients ch hit
  · obtain ⟨hit, hhit⟩ := hnamed
    rw [visits_named h hhit.1 (nextClientDouble_named h hhit)]
    simp only [hwant]
    rw [hitVisits_double hhit.1]
    constructor
    · intro hfits
      refine ⟨fun hit' hhit' => ?_, fun hno => absurd hhit (hno hit)⟩
      rw [(named_iff h hhit hhit'.1).mp hhit'.2.1]
      exact hfits
    · exact fun hfits => hfits.named hit hhit
  · have hmiss : S.find ch = none := by
      cases hf : S.find ch with
      | none => rfl
      | some c => exact absurd ⟨c, h.find_eq_some_iff.mp hf⟩ hnamed
    rw [visits_iff (usageLoop_double_miss h.dlist hmiss 0)]
    simp only [hwant]
    constructor
    · rintro ⟨-, hmem⟩
      exact ⟨fun hit hhit => absurd ⟨hit, hhit⟩ hnamed,
        fun _ c hc hq => by simpa using (hmem c).mpr ⟨hc, hq⟩⟩
    · intro hfits
      refine ⟨List.nodup_nil, fun c => iff_of_false (by simp) ?_⟩
      exact fun hc => hfits.unnamed (fun hit hhit => hnamed ⟨hit, hhit⟩) c hc.1 hc.2

/-- The usage loop is right, with either function, exactly when the mask
fits. -/
theorem usageLoop_visits (_hch : cstr ch ≠ []) :
    (Visits S (S.nextClient ch) clients
        (fun c => ircStrcmp ch (S.name c) = 0 ∨ ircMatch ch (S.name c) = 0) ∧
      Visits S (S.nextClientDouble ch) clients
        (fun c => ircMatch ch (S.name c) = 0 ∨ ircMatch (S.name c) ch = 0)) ↔
    NextFits S clients ch ∧ DoubleFits S clients ch :=
  and_congr (nextClient_visits h) (nextClientDouble_visits h)

end Fits

def twoNames (c : Nat) : List UInt8 := if c = 1 then [0x62] else [0x61]

/-- The clients `b` and `a`, in this order. -/
def twoClients : ClientList where
  globalClientList := some 1
  next c := if c = 1 then some 0 else none
  prev c := if c = 0 then some 1 else none
  name := twoNames
  clientTable :=
    addToClientHashTable 0 (twoNames 1) 1 (addToClientHashTable 0 (twoNames 0) 0 .cleared)
  ircdRandomKey := 0
  count := 2

theorem twoClients_lists : twoClients.Lists [1, 0] where
  dlist := ⟨⟨rfl, rfl, rfl⟩, ⟨rfl, rfl, rfl⟩⟩
  count := by decide
  indexed := show Indexed (fun c => (strhash 0 (twoNames c)).toNat)
      (addToHashTable (strhash 0 (twoNames 1)).toNat 1
        (addToHashTable (strhash 0 (twoNames 0)).toNat 0 .cleared)) [1, 0] from
    ((@Indexed.cleared fun c => (strhash 0 (twoNames c)).toNat).add (by simp)).add (by simp)
  distinct := by decide

/-- The first of them, looked for by its name. -/
theorem usageLoop_visits_first :
    Visits twoClients (twoClients.nextClient [0x62]) [1, 0]
        (fun c => ircStrcmp [0x62] (twoClients.name c) = 0 ∨
          ircMatch [0x62] (twoClients.name c) = 0) ∧
      Visits twoClients (twoClients.nextClientDouble [0x62]) [1, 0]
        (fun c => ircMatch [0x62] (twoClients.name c) = 0 ∨
          ircMatch (twoClients.name c) [0x62] = 0) := by
  have hno : ¬∀ hit, ¬Named twoClients [1, 0] [0x62] hit := fun hno => hno 1 (by decide)
  have hnamed : ∀ hit, Named twoClients [1, 0] [0x62] hit → hit = 1 := by
    rintro hit ⟨hmem, hname, -⟩
    exact (named_iff twoClients_lists (by decide : Named twoClients [1, 0] [0x62] 1) hmem).mp hname
  refine (usageLoop_visits twoClients_lists (by decide)).mpr
    ⟨⟨fun hit hhit => ?_, fun h => absurd h hno⟩, ⟨fun hit hhit => ?_, fun h => absurd h hno⟩⟩
  · rw [hnamed hit hhit]
    decide
  · rw [hnamed hit hhit]
    decide

/-- The last of them: the loop does not end. -/
theorem usageLoop_last :
    twoClients.Lists [1, 0] ∧ cstr [0x61] ≠ [] ∧
    ¬(Visits twoClients (twoClients.nextClient [0x61]) [1, 0]
        (fun c => ircStrcmp [0x61] (twoClients.name c) = 0 ∨
          ircMatch [0x61] (twoClients.name c) = 0) ∧
      Visits twoClients (twoClients.nextClientDouble [0x61]) [1, 0]
        (fun c => ircMatch [0x61] (twoClients.name c) = 0 ∨
          ircMatch (twoClients.name c) [0x61] = 0)) := by
  refine ⟨twoClients_lists, by decide, fun hb => ?_⟩
  have hfits := (nextClient_visits twoClients_lists).mp hb.1
  have hlast := hfits.named 0 (by decide)
  rw [if_neg (by decide)] at hlast
  exact hlast.1 rfl

end ClientList

end TrIrcd
