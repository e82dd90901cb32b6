import TrIrcd.Proofs.ServerTree
import Mathlib.Data.List.Perm.Subperm

/-!
# What `exit_client` leaves behind

`Tree V s` adds to `Wf` what makes the lists a tree of the clients that are
still there: every list belongs to a server on a list or to `me`, the chains
of parents have no cycle, and every client with a `servptr` is on the list its
`servptr` says. Under it the forest below a server exists, and holds the
clients from which the chain of `servptr` passes through the server.

`Exited xs` says that the clients `xs` have left: as `Dropped`, except that
the block of a local client is not freed yet. A listed user exits alone, a
server with everything below it, and a client on no list takes only its name
out of the hash table. None of them changes by how much a count beside a list
differs from the length of the list.
-/

namespace TrIrcd

open Function (update)
open TrIrcd.Lib
open Relation (ReflTransGen TransGen)

namespace NetSt

/-- Allocated and not exited. -/
def Present (s : NetSt) (c : Nat) : Prop := c ∈ s.clients ∧ (s.client c).exited = false

/-- No reason for `exit_client` to return early. -/
def Open (c : Client) : Prop :=
  c.closing = false ∧ c.exited = false ∧ c.httpClient = false ∧
    (c.localClient && c.listenerHttp) = false

structure Tree (V : TreeList → List Nat) (s : NetSt) : Prop where
  listed_open : ∀ {l x}, x ∈ V l → Open (s.client x)
  rooted : ∀ {l x}, x ∈ V l → l.owner = me ∨ ∃ q, l.owner ∈ V (.servers q)
  acyclic : ∃ depth : Nat → Nat, ∀ l, ∀ x ∈ V l, depth l.owner < depth x
  complete : ∀ {c p}, s.Present c → c ≠ me → (s.client c).servptr = some p →
    c ∈ V (.users p) ∨ c ∈ V (.servers p)
  placed : ∀ {c}, s.Present c → (s.client c).status = .client ∨ (s.client c).status = .server →
    (s.client c).servptr ≠ none
  me_owner : (s.client me).status = .me ∧ (s.client me).serv = .block
  me_servptr : (s.client me).servptr = some me

/-- The servers form a tree below `me`, and the lists and the client hash
table say so. -/
def WellFormed (key : UInt32) (s : NetSt) : Prop := ∃ V H, Wf key V H s ∧ Tree V s

/-- The chain of `servptr` from `c` passes through `x`. -/
def Below (s : NetSt) (x c : Nat) : Prop :=
  s.Present c ∧ ReflTransGen (fun a b => (s.client a).servptr = some b) c x

/-- A list as a walk along `lnext` finds it. -/
def list (l : TreeList) (s : NetSt) : List Nat :=
  walk s.llist.next s.clients.length (s.llist.head l)

def InTable (s : NetSt) (c : Nat) : Prop := ∃ i, c ∈ s.clientTable.buckets.nodes i

section Tree

variable {key : UInt32} {V : TreeList → List Nat} {H : List Nat} {s s' : NetSt}
  {l : TreeList} {x p : Nat}

theorem Wf.length_le (h : Wf key V H s) (l : TreeList) : (V l).length ≤ s.clients.length :=
  ((h.linked.nodup l).subperm fun _ hx => (h.live hx).1).length_le

theorem Wf.list (h : Wf key V H s) (l : TreeList) : s.list l = V l :=
  walk_eq (h.linked.dlist l).1 (h.length_le l)

theorem Wf.inTable (h : Wf key V H s) {c : Nat} : s.InTable c ↔ c ∈ H := h.indexed.mem_iff.symm

/-- Users have no lists. -/
theorem Wf.user_nil (h : Wf key V H s) (hx : x ∈ V (.users p)) : ∀ k, k.owner = x → V k = [] := by
  intro k hk
  refine List.eq_nil_iff_forall_not_mem.mpr fun y hy => ?_
  have ho := (h.owner hy).1
  rw [hk, (h.role hx).1] at ho
  rcases ho with ho | ho <;> cases ho

/-! ## The forest below a server -/

/-- The parent of a listed client. -/
def Par (V : TreeList → List Nat) (x p : Nat) : Prop := x ∈ V (.servers p) ∨ x ∈ V (.users p)

theorem Par.listed {y q : Nat} (h : Par V y q) : ∃ l, l.owner = q ∧ y ∈ V l := by
  rcases h with h | h
  · exact ⟨_, rfl, h⟩
  · exact ⟨_, rfl, h⟩

theorem Wf.par_servptr (h : Wf key V H s) {y q : Nat} (hp : Par V y q) :
    (s.client y).servptr = some q := by
  obtain ⟨l, rfl, hy⟩ := hp.listed
  exact (h.role hy).servptr

theorem Tree.irrefl (t : Tree V s) (y : Nat) : ¬ TransGen (Par V) y y := by
  obtain ⟨depth, hd⟩ := t.acyclic
  have hlt : ∀ {a b}, TransGen (Par V) a b → depth b < depth a := by
    intro a b hab
    induction hab with
    | single hp =>
        obtain ⟨l, rfl, hy⟩ := hp.listed
        exact hd l _ hy
    | tail _ hp ih =>
        obtain ⟨l, rfl, hy⟩ := hp.listed
        exact Nat.lt_trans (hd l _ hy) ih
  exact fun hy => Nat.lt_irrefl _ (hlt hy)

/-- A server with its users and the servers behind it, as a forest of one
tree without a node twice. -/
theorem exists_tree (h : Wf key V H s) (t : Tree V s) (hx : x ∈ V (.servers p)) :
    ∃ f : Forest Nat, f.roots = V (.servers x) ∧
      f.Hangs (fun q => V (.servers q)) (fun q => V (.users q)) ∧
      (V (.users x) ++ f.all ++ [x]).Nodup ∧
      ∀ c, c ∈ V (.users x) ++ f.all ++ [x] ↔ ReflTransGen (Par V) c x := by
  obtain ⟨depth, hd⟩ := t.acyclic
  -- Depths are bounded on the clients there are, so heights decrease downwards.
  have hbound : ∀ {l y}, y ∈ V l → depth y < (s.clients.map depth).foldr max 0 + 1 :=
    fun hy => lt_foldr_max_succ (List.mem_map_of_mem (h.live hy).1)
  have hheight : ∀ q, ∀ y ∈ V (.servers q),
      (s.clients.map depth).foldr max 0 + 1 - depth y <
        (s.clients.map depth).foldr max 0 + 1 - depth q := by
    intro q y hy
    have h1 : depth q < depth y := hd _ y hy
    have h2 := hbound hy
    omega
  obtain ⟨f, hf, hh⟩ := Forest.exists_forest (fun q => V (.users q))
    (fun y => (s.clients.map depth).foldr max 0 + 1 - depth y) hheight _ (V (.servers x))
    (hheight x)
  have hnode : (Forest.node x (V (.users x)) f .nil).Hangs (fun q => V (.servers q))
      fun q => V (.users q) := ⟨rfl, hf.symm, hh, trivial⟩
  have hk : ∀ q, ∀ y ∈ V (.servers q), Par V y q := fun _ _ hy => Or.inl hy
  have hl : ∀ q, ∀ y ∈ V (.users q), Par V y q := fun _ _ hy => Or.inr hy
  refine ⟨f, hf, hh, ?_, fun c => ?_⟩
  · refine Forest.Hangs.nodup hk hl ?_ t.irrefl ?_ (fun q => h.linked.nodup _)
      (fun q => h.linked.nodup _) hnode (List.nodup_singleton x) (p := p) ?_
    · intro y q q' hq hq'
      exact Option.some.inj ((h.par_servptr hq).symm.trans (h.par_servptr hq'))
    · intro q y hy hy'
      exact TreeList.noConfusion (h.linked.apart hy hy')
    · intro r hr
      rw [List.mem_singleton.mp hr]
      exact Or.inl hx
  · have hm := Forest.Hangs.mem_all_iff (y := c) hk hl (fun _ _ hy => hy)
      (fun q y hy z hz => ?_) hnode
    · refine hm.trans ?_
      simp only [Forest.roots, List.mem_singleton, exists_eq_left]
    · obtain ⟨l, hl, hz⟩ := hz.listed
      rw [h.user_nil hy l hl] at hz
      cases hz

/-- No chain leaves `me`. -/
theorem Tree.not_from_me (t : Tree V s) (hx : x ≠ me) :
    ¬ ReflTransGen (fun a b => (s.client a).servptr = some b) me x := by
  intro hc
  have hall : ∀ {a b}, ReflTransGen (fun a b => (s.client a).servptr = some b) a b →
      a = me → b = me := by
    intro a b hab
    induction hab with
    | refl => exact fun e => e
    | tail _ hbc ih =>
        intro e
        rw [ih e, t.me_servptr] at hbc
        exact (Option.some.inj hbc).symm
  exact hx (hall hc rfl)

/-- The chains of parents on the lists are the chains of `servptr`. -/
theorem below_iff (h : Wf key V H s) (t : Tree V s) (hx : x ∈ V (.servers p)) {c : Nat} :
    ReflTransGen (Par V) c x ↔ s.Below x c := by
  have hpres : ∀ {l y}, y ∈ V l → s.Present y :=
    fun hy => ⟨(h.live hy).1, (t.listed_open hy).2.1⟩
  have hme : x ≠ me := by
    rintro rfl
    have hst := (h.role hx).1
    rw [t.me_owner.1] at hst
    cases hst
  constructor
  · intro hc
    induction hc using ReflTransGen.head_induction_on with
    | refl => exact ⟨hpres hx, ReflTransGen.refl⟩
    | head hp _ ih =>
        obtain ⟨l, -, hy⟩ := hp.listed
        exact ⟨hpres hy, ReflTransGen.head (h.par_servptr hp) ih.2⟩
  · rintro ⟨hc, hch⟩
    induction hch using ReflTransGen.head_induction_on with
    | refl => exact ReflTransGen.refl
    | @head a b hab hbx ih =>
        by_cases ha : a = me
        · subst ha
          exact (t.not_from_me hme (ReflTransGen.head hab hbx)).elim
        · have hpar : Par V a b := (t.complete hc ha hab).symm
          obtain ⟨l, hl, hy⟩ := hpar.listed
          refine ReflTransGen.head hpar (ih ?_)
          rcases t.rooted hy with hr | ⟨q, hq⟩
          · rw [hl] at hr
            rw [hr] at hbx
            exact (t.not_from_me hme hbx).elim
          · rw [hl] at hq
            exact hpres hq

end Tree

/-! ## Leaving -/

/-- The clients `xs` have left. -/
structure Exited (key : UInt32) (xs : List Nat) (V : TreeList → List Nat) (H : List Nat)
    (s : NetSt) (V' : TreeList → List Nat) (H' : List Nat) (s' : NetSt) : Prop where
  wf : Wf key V' H' s'
  lists : ∀ l, V' l = (V l).filter fun c => c ∉ xs
  held : ∀ c, c ∈ H' ↔ c ∈ H ∧ c ∉ xs
  kept : ∀ c, c ∉ xs → (c ∈ s'.clients ↔ c ∈ s.clients) ∧ s'.client c = s.client c
  gone : ∀ c ∈ xs, c ∈ s'.clients → (s'.client c).exited = true ∧ (s'.client c).status ≠ .me
  cnt : ∀ l, s'.cnt l - (V' l).length = s.cnt l - (V l).length

/-- What `exit_client` has done before `exit_one_client`. -/
structure Ready (x : Nat) (s s₀ : NetSt) : Prop where
  clients : s₀.clients = s.clients
  llist : s₀.llist = s.llist
  clientTable : s₀.clientTable = s.clientTable
  cnt : s₀.cnt = s.cnt
  client_ne : ∀ c, c ≠ x → s₀.client c = s.client c
  client_self : SamePlace (s.client x) (s₀.client x)
  total : s₀.count.total = s.count.total
  server : s₀.count.server = s.count.server

/-- What `exit_client` does after it: the block of a remote client is freed. -/
def finish (b : Bool) (x : Nat) (s : NetSt) : NetSt :=
  if b then s.modify x fun c => { c with exited := true }
  else (s.modify x fun c => { c with exited := true }).removeClientFromList x

section Exit

variable {key : UInt32} {V V' : TreeList → List Nat} {H H' : List Nat} {s s' s₀ s₁ : NetSt}
  {l : TreeList} {x p : Nat} {xs : List Nat}

theorem Ready.wf (hr : Ready x s s₀) (h : Wf key V H s) : Wf key V H s₀ := by
  refine h.congr hr.clients hr.llist hr.clientTable fun c => ?_
  by_cases hc : c = x
  · rw [hc]
    exact hr.client_self
  · rw [hr.client_ne c hc]
    exact ⟨rfl, rfl, rfl, rfl, rfl⟩

theorem exitClient_eq (key : UInt32) (ho : Open (s.client x)) (hm : (s.client x).status ≠ .me) :
    ∃ s₀, Ready x s s₀ ∧ exitClient key x s =
      (exitOneClient key s.exitFuel x s₀).map (finish (s.client x).localClient x) := by
  obtain ⟨hc, he, hh, hl⟩ := ho
  have hplace : SamePlace (s.client x)
      ((s.modify x fun c => { c with closing := true }).client x) := by
    simp only [modify, Function.update_self]
    exact ⟨rfl, rfl, rfl, rfl, rfl⟩
  have hne : ∀ c, c ≠ x → (s.modify x fun c => { c with closing := true }).client c = s.client c :=
    fun c hc => Function.update_of_ne hc ..
  simp only [exitClient, if_neg hm, hc, he, hh, Bool.or_self, Bool.false_eq_true, if_false]
  cases hloc : (s.client x).localClient with
  | true =>
      rw [hloc, Bool.true_and] at hl
      simp only [hl, if_true, Bool.false_eq_true, if_false]
      split <;> split <;> refine ⟨_, ?_, rfl⟩ <;>
        exact ⟨rfl, rfl, rfl, rfl, hne, hplace, rfl, rfl⟩
  | false =>
      refine ⟨_, ?_, rfl⟩
      exact ⟨rfl, rfl, rfl, rfl, hne, hplace, rfl, rfl⟩

/-- The block of a client that left its list may stay in the heap. -/
theorem Wf.regain (h : Wf key V H (s'.removeClientFromList x)) (hnd : s'.clients.Nodup) :
    Wf key V H s' where
  linked := h.linked
  tidy := h.tidy
  indexed := h.indexed
  held_nodup := h.held_nodup
  clients_nodup := hnd
  live := fun hy => ⟨List.mem_of_mem_erase (h.live hy).1, (h.live hy).2⟩
  role := h.role
  owner_live := fun hy => List.mem_of_mem_erase (h.owner_live hy)
  owner := h.owner

/-- It is enough to know the state in which the last block is freed. -/
theorem Exited.regain (h : Exited key xs V H s V' H' (finish false x s₁)) (hx : x ∈ xs)
    (hnd : s₁.clients.Nodup) (hst : (s₁.client x).status ≠ .me) (b : Bool) :
    Exited key xs V H s V' H' (finish b x s₁) := by
  cases b with
  | false => exact h
  | true =>
      refine ⟨h.wf.regain hnd, h.lists, h.held, fun c hc => ⟨?_, (h.kept c hc).2⟩,
        fun c hc hc' => ?_, h.cnt⟩
      · have hcx : c ≠ x := by
          rintro rfl
          exact hc hx
        exact (List.mem_erase_of_ne hcx).symm.trans (h.kept c hc).1
      · by_cases hcx : c = x
        · subst hcx
          simp only [finish, if_true, modify, Function.update_self]
          exact ⟨trivial, hst⟩
        · exact h.gone c hc ((List.mem_erase_of_ne hcx).mpr hc')

theorem Ready.exited {us ss : List Nat} (hr : Ready x s s₀) (hx : x ∈ us ++ ss)
    (hd : Dropped key us ss V H s₀ V' H' (finish false x s₁)) :
    Exited key (us ++ ss) V H s V' H' (finish false x s₁) := by
  have hmem : ∀ c, c ∉ us ++ ss ↔ c ∉ us ∧ c ∉ ss := by
    intro c
    rw [List.mem_append, not_or]
  refine ⟨hd.wf, fun l => ?_, fun c => ?_, fun c hc => ⟨?_, ?_⟩, fun c hc hc' => ?_,
    fun l => ?_⟩
  · simp only [hmem]
    exact hd.lists l
  · rw [hmem]
    exact hd.held c
  · rw [hd.clients, hr.clients]
    exact and_iff_left ((hmem c).mp hc)
  · have hcx : c ≠ x := by
      rintro rfl
      exact hc hx
    exact (hd.client c ((hmem c).mp hc).1 ((hmem c).mp hc).2).trans (hr.client_ne c hcx)
  · exact absurd hc ((hmem c).mpr ((hd.clients c).mp hc').2)
  · rw [← hr.cnt]
    exact hd.cnt l

/-- Taking a client on no list out of the table and the heap. -/
theorem Wf.forget (h : Wf key V H s) (hx : ∀ l, x ∉ V l) (hown : ∀ l, l.owner = x → V l = [])
    (hll : s'.llist = s.llist)
    (ht : s'.clientTable = (delFromClientHashTable key (s.client x).name x s.clientTable).2)
    (hc : ∀ c, c ≠ x → s'.client c = s.client c) (hcl : s'.clients = s.clients.erase x) :
    Wf key V (H.erase x) s' := by
  have hne : ∀ {k y}, y ∈ V k → y ≠ x := by
    rintro k y hy rfl
    exact hx k hy
  have howner : ∀ {k y}, y ∈ V k → k.owner ≠ x := by
    intro k y hy e
    rw [hown k e] at hy
    cases hy
  refine ⟨by rw [hll]; exact h.linked, by rw [hll]; exact h.tidy, ?_, h.held_nodup.erase x,
    by rw [hcl]; exact h.clients_nodup.erase x, fun hy => ?_, fun hy => ?_, fun hy => ?_,
    fun hy => ?_⟩
  · rw [ht]
    have hdel : Indexed (fun c => (strhash key (s.client c).name).toNat)
        (delFromClientHashTable key (s.client x).name x s.clientTable).2 (H.erase x) := by
      by_cases hxH : x ∈ H
      · exact (h.indexed.del hxH h.held_nodup).2
      · rw [delFromClientHashTable, h.indexed.del_absent hxH, List.erase_of_not_mem hxH]
        exact h.indexed
    exact hdel.congr fun c hc' => by rw [hc c (h.held_nodup.mem_erase_iff.mp hc').1]
  · rw [hcl]
    exact ⟨(List.mem_erase_of_ne (hne hy)).mpr (h.live hy).1,
      (List.mem_erase_of_ne (hne hy)).mpr (h.live hy).2⟩
  · rw [hc _ (hne hy)]
    exact h.role hy
  · rw [hcl]
    exact (List.mem_erase_of_ne (howner hy)).mpr (h.owner_live hy)
  · rw [hc _ (howner hy)]
    exact h.owner hy

/-- What `exit_one_client` does for a client that is on no server. -/
theorem exitOneClient_idle (key : UInt32) (hm : (s.client x).status ≠ .me)
    (hs : (s.client x).status ≠ .server) (hp : (s.client x).servptr = none) (fuel : Nat) :
    ∃ s', exitOneClient key (fuel + 1) x s = .ok s' ∧ s'.clients = s.clients ∧
      s'.llist = s.llist ∧ s'.cnt = s.cnt ∧
      s'.clientTable = (delFromClientHashTable key (s.client x).name x s.clientTable).2 ∧
      (∀ c, c ≠ x → s'.client c = s.client c) ∧
      (s'.client x).status = (s.client x).status := by
  by_cases hst : (s.client x).status = .client
  · cases hu : (s.client x).user.isSome with
    | true =>
        refine ⟨_, by
          simp only [exitOneClient, hst, reduceCtorEq, if_false, if_true, Except.bind, isPerson,
            hu, Bool.true_and, decide_true, exitPerson, leave, hp, Except.map]
          rfl, ?_, ?_, ?_, ?_, fun c hc => ?_, ?_⟩
        · rfl
        · rfl
        · rfl
        · simp only [modify, Function.update_self]
        · simp only [modify, Function.update_of_ne hc]
        · simp only [modify, Function.update_self]
    | false =>
        refine ⟨_, by
          simp only [exitOneClient, hst, reduceCtorEq, if_false, if_true, Except.bind, isPerson,
            hu, Bool.false_and, Bool.false_eq_true]
          rfl, ?_, ?_, ?_, ?_, fun c _ => ?_, ?_⟩
        all_goals rfl
  · refine ⟨_, by
      simp only [exitOneClient, if_neg hm, if_neg hs, if_neg hst, Except.bind, isPerson,
        decide_eq_false hst, Bool.and_false, Bool.false_eq_true, if_false]
      rfl, ?_, ?_, ?_, ?_, fun c _ => ?_, ?_⟩
    all_goals rfl

/-- A client on no list leaves the hash table. -/
theorem exitClient_idle (h : Wf key V H s) (ho : Open (s.client x))
    (hm : (s.client x).status ≠ .me) (hs : (s.client x).status ≠ .server)
    (hp : (s.client x).servptr = none) (hx : ∀ l, x ∉ V l)
    (hown : ∀ l, l.owner = x → V l = []) :
    ∃ s', exitClient key x s = .ok s' ∧ Exited key [x] V H s V (H.erase x) s' := by
  obtain ⟨s₀, hr, he⟩ := exitClient_eq key ho hm
  have h₀ := hr.wf h
  obtain ⟨hname, hst, -, hptr, -⟩ := hr.client_self
  obtain ⟨s₁, hs₁, hcl, hll, hcnt, ht, hc, hst₁⟩ := exitOneClient_idle key
    (by rw [hst]; exact hm) (by rw [hst]; exact hs) (hptr.trans hp) (4 * s.clients.length + 3)
  have hmem := List.mem_singleton_self x
  have hfin : ∀ c, c ≠ x → (finish false x s₁).client c = s₁.client c :=
    fun c hc => Function.update_of_ne hc ..
  have hcl' : (finish false x s₁).clients = s.clients.erase x :=
    (congrArg (List.erase · x) (hcl.trans hr.clients))
  have hout : s.exitClient key x = .ok (finish (s.client x).localClient x s₁) := by
    rw [he, show s.exitFuel = 4 * s.clients.length + 3 + 1 from rfl, hs₁]
    rfl
  suffices hex : Exited key [x] V H s V (H.erase x) (finish false x s₁) from
    ⟨_, hout, hex.regain hmem (by rw [hcl, hr.clients]; exact h.clients_nodup)
      (by rw [hst₁, hst]; exact hm) (s.client x).localClient⟩
  refine ⟨?_, fun l => ?_, fun c => ?_, fun c hc' => ⟨?_, ?_⟩, fun c hc' hc'' => ?_, fun l => ?_⟩
  · refine h₀.forget hx hown hll ht (fun c hc' => (hfin c hc').trans (hc c hc')) ?_
    rw [hcl', hr.clients]
  · rw [eq_comm, List.filter_eq_self]
    intro c hcl
    refine decide_eq_true fun hcx => hx l ?_
    rw [← List.mem_singleton.mp hcx]
    exact hcl
  · rw [h.held_nodup.mem_erase_iff, List.mem_singleton, and_comm]
  · rw [hcl']
    exact List.mem_erase_of_ne fun e => hc' (List.mem_singleton.mpr e)
  · have hcx : c ≠ x := fun e => hc' (List.mem_singleton.mpr e)
    rw [hfin c hcx, hc c hcx, hr.client_ne c hcx]
  · rw [List.mem_singleton.mp hc', hcl'] at hc''
    exact absurd rfl (h.clients_nodup.mem_erase_iff.mp hc'').1
  · rw [← hr.cnt, ← hcnt]
    rfl

/-- A listed user exits alone. -/
theorem exitClient_user (h : Wf key V H s) (ho : Open (s.client x)) (hx : x ∈ V (.users p)) :
    ∃ s' V' H', exitClient key x s = .ok s' ∧ Exited key [x] V H s V' H' s' := by
  obtain ⟨s₀, hr, he⟩ := exitClient_eq key ho
    (by rw [(h.role hx).1]; exact Status.noConfusion)
  obtain ⟨s₁, hs₁, hd, hnd, hst⟩ := exitOneClient_user (hr.wf h) hx (4 * s.clients.length + 3)
  have hmem := List.mem_singleton_self x
  have hex : Exited key [x] V H s _ _ (finish false x s₁) := hr.exited hmem hd
  refine ⟨_, _, _, ?_, hex.regain hmem hnd hst (s.client x).localClient⟩
  rw [he, show s.exitFuel = 4 * s.clients.length + 3 + 1 from rfl, hs₁]
  rfl

/-- A listed server takes along everything below it. -/
theorem exitClient_server (h : Wf key V H s) (t : Tree V s) (hx : x ∈ V (.servers p)) :
    ∃ s' V' H' us ss, exitClient key x s = .ok s' ∧ Exited key (us ++ ss) V H s V' H' s' ∧
      s'.count.total = s.count.total - us.length ∧
      s'.count.server = s.count.server - ss.length ∧
      (us ++ ss).Nodup ∧ (∀ c, c ∈ us ++ ss ↔ s.Below x c) ∧
      (∀ c ∈ us, (s.client c).status = .client) ∧ ∀ c ∈ ss, (s.client c).status = .server := by
  obtain ⟨f, hf, hh, hnd, hmem⟩ := exists_tree h t hx
  have hst := (h.role hx).1
  obtain ⟨s₀, hr, he⟩ := exitClient_eq key (t.listed_open hx)
    (by rw [hst]; exact Status.noConfusion)
  have h₀ := hr.wf h
  obtain ⟨hnd₁, -, hdis⟩ := List.nodup_append.mp hnd
  have hxf : ∀ {c}, c ∈ V (.users x) ++ f.all → c ≠ x :=
    fun hc e => hdis _ hc x (List.mem_singleton_self x) e
  have hsub : V (.users x) ++ f.all ++ [x] ⊆ s.clients :=
    fun c hc => ((below_iff h t hx).mp ((hmem c).mp hc)).1.1
  have hlen := (hnd.subperm hsub).length_le
  simp only [List.length_append, List.length_singleton] at hlen
  have hown : Owner (s₀.client x) := hr.client_self.owner ⟨Or.inl hst, (h.role hx).2.1⟩
  obtain ⟨s₁, V₁, H₁, hs₁, hd₁⟩ := exitRecursion_ok (clears f) (4 * s.clients.length + 3) h₀ rfl
    hf.symm hh hnd₁ (fun hc => hxf (List.mem_append_right _ hc) rfl) (h₀.live hx).1
    (h₀.role hx).1 hown (by omega)
  have hxu : x ∉ V (.users x) ++ f.allLeaves := fun hc => by
    rcases List.mem_append.mp hc with hc | hc
    · exact hxf (List.mem_append_left _ hc) rfl
    · exact hxf (List.mem_append_right _ (f.allLeaves_sublist.subset hc)) rfl
  have hxi : x ∉ f.inner := fun hc =>
    hxf (List.mem_append_right _ (f.inner_sublist.subset hc)) rfl
  have hu₁ : V₁ (.users x) = [] :=
    hd₁.list_nil fun c hc => Or.inl (List.mem_append_left _ hc)
  have hk₁ : V₁ (.servers x) = [] := by
    refine hd₁.list_nil fun c hc => ?_
    rw [← hf] at hc
    exact (Forest.mem_all_iff.mp (f.roots_subset c hc)).symm.imp_left
      (List.mem_append_right _)
  obtain ⟨s₂, hs₂, hd₂, hnd₂, hst₂⟩ := exitOneClient_server h₀ hx hs₁ hd₁ hxu hxi
    (TreeList.nil_of_owner hu₁ hk₁)
  have hd := hd₁.trans hd₂
  rw [List.append_nil] at hd
  have hxm : x ∈ V (.users x) ++ f.allLeaves ++ (f.inner ++ [x]) :=
    List.mem_append_right _ (List.mem_append_right _ (List.mem_singleton_self x))
  have hcount : (finish (s.client x).localClient x s₂).count = s₂.count := by
    cases (s.client x).localClient <;> rfl
  refine ⟨_, _, _, V (.users x) ++ f.allLeaves, f.inner ++ [x], ?_,
    (hr.exited hxm hd).regain hxm hnd₂ hst₂ (s.client x).localClient, ?_, ?_, ?_, fun c => ?_,
    fun c hc => ?_, fun c hc => ?_⟩
  · rw [he, show s.exitFuel = 4 * s.clients.length + 3 + 1 from rfl, hs₂]
    rfl
  · rw [hcount, ← hr.total]
    exact hd.total
  · rw [hcount, ← hr.server]
    exact hd.server
  · have hperm : (V (.users x) ++ f.all ++ [x]).Perm
        (V (.users x) ++ f.allLeaves ++ (f.inner ++ [x])) := by
      rw [← List.append_assoc]
      refine List.Perm.append_right _ ?_
      rw [List.append_assoc]
      exact (f.perm_all.trans List.perm_append_comm).append_left _
    exact hperm.nodup_iff.mp hnd
  · rw [← below_iff h t hx, ← hmem]
    simp only [List.mem_append, Forest.mem_all_iff]
    tauto
  · rcases List.mem_append.mp hc with hc | hc
    · exact (h.role hc).1
    · obtain ⟨q, hq⟩ := hh.origin.1 c hc
      exact (h.role hq).1
  · rcases List.mem_append.mp hc with hc | hc
    · rcases hh.origin.2 c hc with hq | ⟨q, hq⟩
      · rw [hf] at hq
        exact (h.role hq).1
      · exact (h.role hq).1
    · rw [List.mem_singleton.mp hc]
      exact hst

end Exit

end NetSt

end TrIrcd
