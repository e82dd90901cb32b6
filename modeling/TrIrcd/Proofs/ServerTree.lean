import TrIrcd.Lib.Forest
import TrIrcd.Proofs.NameTable
import TrIrcd.Src.Network

/-!
# Taking a server tree apart

`Wf key V H s` says that the lists of `s` are `V`, that the client hash table
holds `H`, and that whoever is on a list has the status, the `servptr` and the
pointers that go with it. It says nothing about clients on no list, so it
holds between any two of the steps in which `exit_recursion` dismantles a
tree.

`Dropped us ss` compares two such states: the users `us` and the servers `ss`
are gone from the lists, the table and the heap, what is left is as it was,
and `Count` and the counts beside the lists went down by what was taken out.
`exit_one_client` drops one client, and `clears` is the induction over the
forest below a server: the loops restart from the head of a list that their
own callees shorten, and end with everything below the server dropped.
-/

namespace TrIrcd

open Function (update)
open TrIrcd.Lib

/-- The lists of a server are its `users` and its `servers`. -/
theorem TreeList.nil_of_owner {V : TreeList → List Nat} {x : Nat} (hu : V (.users x) = [])
    (hs : V (.servers x) = []) (l : TreeList) (hl : l.owner = x) : V l = [] := by
  subst hl
  cases l with
  | users p => exact hu
  | servers p => exact hs

/-! ## The two functions on lists -/

section Llist

variable {L : Links TreeList Nat} {V : TreeList → List Nat} {l : TreeList} {x : Nat}

theorem update_self_apply {f : Nat → Option Nat} (m x : Nat) : update f m (f x) x = f x := by
  by_cases hx : x = m
  · rw [hx, Function.update_self]
  · rw [Function.update_of_ne hx]

theorem addClientToLlist_eq (ht : L.Tidy V) (hx : ∀ k, x ∉ V k) :
    addClientToLlist l x L = L.add l x := by
  obtain ⟨hn, hp⟩ := ht x hx
  rw [addClientToLlist, if_pos ⟨hp, hn⟩]

theorem delClientFromLlist_eq (h : Linked L V) (hx : x ∈ V l) :
    delClientFromLlist l x L = (L.del l x).clear x := by
  obtain ⟨as, bs, -, hv, -⟩ := List.exists_erase_eq hx
  have hd := h.dlist l
  rw [hv] at hd
  have hp := hd.prev_eq
  cases hpx : L.prev x with
  | some p =>
      simp only [delClientFromLlist, Links.del, hpx, update_self_apply]
      cases L.next x <;> rfl
  | none =>
      have hh : L.head l = some x := by
        rw [hpx] at hp
        rw [List.getLast?_eq_none_iff.mp hp.symm] at hd
        exact hd.1.1
      simp only [delClientFromLlist, Links.del, hpx, hh, if_true]
      cases L.next x <;> rfl

/-- For a client on no list nothing happens. -/
theorem delClientFromLlist_absent (h : Linked L V) (ht : L.Tidy V) (hx : ∀ k, x ∉ V k) :
    Linked (delClientFromLlist l x L) V ∧ (delClientFromLlist l x L).Tidy V := by
  obtain ⟨hn, hp⟩ := ht x hx
  have hh : L.head l ≠ some x := by
    rw [h.head_eq]
    exact fun e => hx l (List.mem_of_head? e)
  have he : delClientFromLlist l x L = L.clear x := by
    simp only [delClientFromLlist, hp, hn, if_neg hh]
  rw [he]
  exact ⟨h.clear hx, Linked.clear_tidy ht x⟩

end Llist

namespace NetSt

/-! ## Well-formed states -/

/-- Who may be on a list. -/
def Role : TreeList → Client → Prop
  | .users p, c => c.status = .client ∧ c.user.isSome = true ∧ c.servptr = some p
  | .servers p, c => c.status = .server ∧ c.serv = .block ∧ c.servptr = some p

/-- Who may have lists. -/
def Owner (c : Client) : Prop := (c.status = .server ∨ c.status = .me) ∧ c.serv = .block

structure Wf (key : UInt32) (V : TreeList → List Nat) (H : List Nat) (s : NetSt) : Prop where
  linked : Linked s.llist V
  tidy : s.llist.Tidy V
  indexed : Indexed (fun c => (strhash key (s.client c).name).toNat) s.clientTable H
  held_nodup : H.Nodup
  clients_nodup : s.clients.Nodup
  live : ∀ {l x}, x ∈ V l → x ∈ s.clients ∧ x ∈ H
  role : ∀ {l x}, x ∈ V l → Role l (s.client x)
  owner_live : ∀ {l x}, x ∈ V l → l.owner ∈ s.clients
  owner : ∀ {l x}, x ∈ V l → Owner (s.client l.owner)

theorem Role.status {l : TreeList} {c : Client} (h : Role l c) :
    c.status = .client ∨ c.status = .server := by
  cases l with
  | users p => exact Or.inl h.1
  | servers p => exact Or.inr h.1

theorem Role.servptr {l : TreeList} {c : Client} (h : Role l c) : c.servptr = some l.owner := by
  cases l with
  | users p => exact h.2.2
  | servers p => exact h.2.2

/-- The fields that say where a client belongs. -/
def SamePlace (c c' : Client) : Prop :=
  c'.name = c.name ∧ c'.status = c.status ∧ c'.user = c.user ∧ c'.servptr = c.servptr ∧
    c'.serv = c.serv

theorem SamePlace.role {l : TreeList} {c c' : Client} (h : SamePlace c c') (hr : Role l c) :
    Role l c' := by
  obtain ⟨-, hs, hu, hp, hb⟩ := h
  cases l with
  | users p => exact ⟨hs.trans hr.1, by rw [hu]; exact hr.2.1, hp.trans hr.2.2⟩
  | servers p => exact ⟨hs.trans hr.1, hb.trans hr.2.1, hp.trans hr.2.2⟩

theorem SamePlace.owner {c c' : Client} (h : SamePlace c c') (ho : Owner c) : Owner c' := by
  obtain ⟨-, hs, -, -, hb⟩ := h
  exact ⟨by rw [hs]; exact ho.1, hb.trans ho.2⟩

section Wf

variable {key : UInt32} {V : TreeList → List Nat} {H : List Nat} {s s' : NetSt}
  {l : TreeList} {x p : Nat}

namespace Wf

/-- Flags and counts do not matter. -/
theorem congr (h : Wf key V H s) (hcl : s'.clients = s.clients) (hll : s'.llist = s.llist)
    (ht : s'.clientTable = s.clientTable)
    (hc : ∀ c, SamePlace (s.client c) (s'.client c)) : Wf key V H s' where
  linked := by rw [hll]; exact h.linked
  tidy := by rw [hll]; exact h.tidy
  indexed := by
    rw [ht]
    exact h.indexed.congr fun c _ => by rw [(hc c).1]
  held_nodup := h.held_nodup
  clients_nodup := by rw [hcl]; exact h.clients_nodup
  live := fun hx => by rw [hcl]; exact h.live hx
  role := fun hx => (hc _).role (h.role hx)
  owner_live := fun hx => by rw [hcl]; exact h.owner_live hx
  owner := fun hx => (hc _).owner (h.owner hx)

theorem serv_owner (h : Wf key V H s) (hx : x ∈ V l) : s.serv l.owner = .ok true := by
  rw [NetSt.serv, if_pos (h.owner_live hx), (h.owner hx).2]

/-- Taking a client without lists of its own off its list and out of the
table and the heap. -/
theorem drop (h : Wf key V H s) (hx : x ∈ V l) (hown : ∀ k, k.owner = x → V k = [])
    (hll : s'.llist = delClientFromLlist l x s.llist)
    (ht : s'.clientTable =
      (delFromClientHashTable key (s.client x).name x s.clientTable).2)
    (hc : ∀ c, c ≠ x → s'.client c = s.client c) (hcl : s'.clients = s.clients.erase x) :
    Wf key (update V l ((V l).erase x)) (H.erase x) s' := by
  have hmem : ∀ {k y}, y ∈ update V l ((V l).erase x) k ↔ y ≠ x ∧ y ∈ V k :=
    h.linked.mem_erase hx
  have howner : ∀ {k y}, y ∈ V k → k.owner ≠ x := by
    intro k y hy e
    rw [hown k e] at hy
    cases hy
  have hrem := h.linked.remove h.tidy hx
  rw [← delClientFromLlist_eq h.linked hx, ← hll] at hrem
  refine ⟨hrem.1, hrem.2, ?_, h.held_nodup.erase x, ?_, fun hy => ?_, fun hy => ?_,
    fun hy => ?_, fun hy => ?_⟩
  · rw [ht]
    refine Indexed.congr (h.indexed.del (h.live hx).2 h.held_nodup).2 fun c hc' => ?_
    rw [hc c ((h.held_nodup.mem_erase_iff).mp hc').1]
  · rw [hcl]
    exact h.clients_nodup.erase x
  · obtain ⟨hne, hy⟩ := hmem.mp hy
    rw [hcl]
    exact ⟨(List.mem_erase_of_ne hne).mpr (h.live hy).1,
      (List.mem_erase_of_ne hne).mpr (h.live hy).2⟩
  · obtain ⟨hne, hy⟩ := hmem.mp hy
    rw [hc _ hne]
    exact h.role hy
  · obtain ⟨-, hy⟩ := hmem.mp hy
    rw [hcl]
    exact (List.mem_erase_of_ne (howner hy)).mpr (h.owner_live hy)
  · obtain ⟨-, hy⟩ := hmem.mp hy
    rw [hc _ (howner hy)]
    exact h.owner hy

end Wf

/-! ## What a removal does -/

/-- The users `us` and the servers `ss` are gone; everything else stayed. -/
structure Dropped (key : UInt32) (us ss : List Nat) (V : TreeList → List Nat) (H : List Nat)
    (s : NetSt) (V' : TreeList → List Nat) (H' : List Nat) (s' : NetSt) : Prop where
  wf : Wf key V' H' s'
  lists : ∀ l, V' l = (V l).filter fun c => c ∉ us ∧ c ∉ ss
  held : ∀ c, c ∈ H' ↔ c ∈ H ∧ c ∉ us ∧ c ∉ ss
  clients : ∀ c, c ∈ s'.clients ↔ c ∈ s.clients ∧ c ∉ us ∧ c ∉ ss
  client : ∀ c, c ∉ us → c ∉ ss → s'.client c = s.client c
  cnt : ∀ l, s'.cnt l - (V' l).length = s.cnt l - (V l).length
  total : s'.count.total = s.count.total - us.length
  server : s'.count.server = s.count.server - ss.length
  localUsers : s'.count.localUsers = s.count.localUsers
  myserver : s'.count.myserver = s.count.myserver

namespace Dropped

variable {us ss us' ss' H' H'' : List Nat} {V' V'' : TreeList → List Nat} {s'' : NetSt}

theorem refl (h : Wf key V H s) : Dropped key [] [] V H s V H s where
  wf := h
  lists l := by simp
  held c := by simp
  clients c := by simp
  client _ _ _ := rfl
  cnt _ := rfl
  total := by simp
  server := by simp
  localUsers := rfl
  myserver := rfl

theorem trans (h : Dropped key us ss V H s V' H' s')
    (h' : Dropped key us' ss' V' H' s' V'' H'' s'') :
    Dropped key (us ++ us') (ss ++ ss') V H s V'' H'' s'' where
  wf := h'.wf
  lists l := by
    rw [h'.lists, h.lists, List.filter_filter]
    refine List.filter_congr fun c _ => ?_
    simp only [List.mem_append, not_or, ← Bool.decide_and, decide_eq_decide]
    constructor
    · rintro ⟨⟨h1, h2⟩, h3, h4⟩
      exact ⟨⟨h3, h1⟩, h4, h2⟩
    · rintro ⟨⟨h3, h1⟩, h4, h2⟩
      exact ⟨⟨h1, h2⟩, h3, h4⟩
  held c := by
    simp only [h'.held, h.held, List.mem_append, not_or]
    constructor
    · rintro ⟨⟨h0, h1, h2⟩, h3, h4⟩
      exact ⟨h0, ⟨h1, h3⟩, h2, h4⟩
    · rintro ⟨h0, ⟨h1, h3⟩, h2, h4⟩
      exact ⟨⟨h0, h1, h2⟩, h3, h4⟩
  clients c := by
    simp only [h'.clients, h.clients, List.mem_append, not_or]
    constructor
    · rintro ⟨⟨h0, h1, h2⟩, h3, h4⟩
      exact ⟨h0, ⟨h1, h3⟩, h2, h4⟩
    · rintro ⟨h0, ⟨h1, h3⟩, h2, h4⟩
      exact ⟨⟨h0, h1, h2⟩, h3, h4⟩
  client c hu hs := by
    rw [List.mem_append, not_or] at hu hs
    rw [h'.client c hu.2 hs.2, h.client c hu.1 hs.1]
  cnt l := (h'.cnt l).trans (h.cnt l)
  total := by
    rw [h'.total, h.total, List.length_append]
    omega
  server := by
    rw [h'.server, h.server, List.length_append]
    omega
  localUsers := h'.localUsers.trans h.localUsers
  myserver := h'.myserver.trans h.myserver

/-- A list none of whose members are gone is the list it was. -/
theorem list_eq (h : Dropped key us ss V H s V' H' s') (hl : ∀ c ∈ V l, c ∉ us ∧ c ∉ ss) :
    V' l = V l := by
  rw [h.lists, List.filter_eq_self]
  exact fun c hc => decide_eq_true (hl c hc)

theorem list_nil (h : Dropped key us ss V H s V' H' s') (hl : ∀ c ∈ V l, c ∈ us ∨ c ∈ ss) :
    V' l = [] := by
  rw [h.lists, List.filter_eq_nil_iff]
  intro c hc
  have := hl c hc
  simp only [decide_eq_true_eq]
  tauto

/-- Dropping one client. -/
theorem single (h : Wf key V H s) (hx : x ∈ V l) (hown : ∀ k, k.owner = x → V k = [])
    (hu : us ++ ss = [x]) (hll : s'.llist = delClientFromLlist l x s.llist)
    (ht : s'.clientTable =
      (delFromClientHashTable key (s.client x).name x s.clientTable).2)
    (hc : ∀ c, c ≠ x → s'.client c = s.client c) (hcl : s'.clients = s.clients.erase x)
    (hcnt : s'.cnt = update s.cnt l (s.cnt l - 1))
    (hcount : s'.count = { s.count with
      total := s.count.total - us.length
      server := s.count.server - ss.length }) :
    Dropped key us ss V H s (update V l ((V l).erase x)) (H.erase x) s' := by
  have hmem : ∀ c, c ∉ us ∧ c ∉ ss ↔ c ≠ x := by
    intro c
    rw [← not_or, ← List.mem_append, hu, List.mem_singleton]
  refine ⟨h.drop hx hown hll ht hc hcl, fun k => ?_, fun c => ?_, fun c => ?_,
    fun c hcu hcs => hc c ((hmem c).mp ⟨hcu, hcs⟩), fun k => ?_, by rw [hcount], by rw [hcount],
    by rw [hcount], by rw [hcount]⟩
  · simp only [hmem]
    by_cases hk : k = l
    · subst hk
      rw [Function.update_self, (h.linked.nodup k).erase_eq_filter]
      exact List.filter_congr fun c _ => by
        rw [Bool.eq_iff_iff, bne_iff_ne, decide_eq_true_eq]
    · rw [Function.update_of_ne hk, eq_comm, List.filter_eq_self]
      intro c hck
      refine decide_eq_true ?_
      rintro rfl
      exact hk (h.linked.apart hck hx)
  · rw [hmem, h.held_nodup.mem_erase_iff, and_comm]
  · rw [hmem, hcl, h.clients_nodup.mem_erase_iff, and_comm]
  · rw [hcnt]
    by_cases hk : k = l
    · subst hk
      have := List.length_pos_of_mem hx
      rw [Function.update_self, Function.update_self, List.length_erase_of_mem hx]
      omega
    · rw [Function.update_of_ne hk, Function.update_of_ne hk]

end Dropped

/-! ## One client -/

theorem leave_listed (h : Wf key V H s) (list : Nat → TreeList) (howner : ∀ p, (list p).owner = p)
    (hx : x ∈ V (list p)) :
    s.leave list x = .ok { s with
      llist := delClientFromLlist (list p) x s.llist
      cnt := update s.cnt (list p) (s.cnt (list p) - 1) } := by
  have hp := (h.role hx).servptr
  have hserv := h.serv_owner hx
  rw [howner] at hp hserv
  simp only [leave, hp, hserv, Except.map, if_true]

/-- Whoever is on a list and owns none is dropped. -/
theorem exitOneClient_user (h : Wf key V H s) (hx : x ∈ V (.users p)) (fuel : Nat) :
    ∃ s', exitOneClient key (fuel + 1) x s = .ok s' ∧
      Dropped key [x] [] V H s (update V (.users p) ((V (.users p)).erase x)) (H.erase x)
        ((s'.modify x fun c => { c with exited := true }).removeClientFromList x) ∧
      s'.clients.Nodup ∧ (s'.client x).status ≠ .me := by
  obtain ⟨hst, huser, -⟩ := h.role hx
  have hown : ∀ k, k.owner = x → V k = [] := by
    intro k hk
    refine List.eq_nil_iff_forall_not_mem.mpr fun y hy => ?_
    have ho := (h.owner hy).1
    rw [hk, hst] at ho
    rcases ho with ho | ho <;> cases ho
  have h' : Wf key V H { s with count := { s.count with total := s.count.total - 1 } } :=
    h.congr rfl rfl rfl fun c => ⟨rfl, rfl, rfl, rfl, rfl⟩
  have hleave := leave_listed h' .users (fun _ => rfl) hx
  refine ⟨_, by
    simp only [exitOneClient, hst, reduceCtorEq, if_false, if_true, Except.bind, isPerson, huser,
      Bool.true_and, decide_true, exitPerson, hleave, Except.map]
    rfl, ?_, ?_, by simp [modify, hst]⟩
  rotate_left
  · exact h.clients_nodup
  refine Dropped.single h hx hown rfl rfl ?_ (fun c hc => ?_) rfl rfl ?_
  · simp only [removeClientFromList, modify, Function.update_self]
  · simp only [removeClientFromList, modify, Function.update_of_ne hc]
  · simp only [removeClientFromList, modify, List.length_singleton, List.length_nil,
      Int.natCast_one, Int.natCast_zero, Int.sub_zero]

/-- A server whose lists the recursion has emptied is dropped. -/
theorem exitOneClient_server {us ss H₁ : List Nat} {V₁ : TreeList → List Nat} {s₁ : NetSt}
    {fuel : Nat} (h : Wf key V H s) (hx : x ∈ V (.servers p))
    (hrec : exitRecursion key fuel x s = .ok s₁) (hd : Dropped key us ss V H s V₁ H₁ s₁)
    (hxu : x ∉ us) (hxs : x ∉ ss) (hown : ∀ k, k.owner = x → V₁ k = []) :
    ∃ s', exitOneClient key (fuel + 1) x s = .ok s' ∧
      Dropped key [] [x] V₁ H₁ s₁ (update V₁ (.servers p) ((V₁ (.servers p)).erase x))
        (H₁.erase x)
        ((s'.modify x fun c => { c with exited := true }).removeClientFromList x) ∧
      s'.clients.Nodup ∧ (s'.client x).status ≠ .me := by
  have hst := (h.role hx).1
  have hc := hd.client x hxu hxs
  have hx₁ : x ∈ V₁ (.servers p) := by
    rw [hd.lists, List.mem_filter]
    exact ⟨hx, decide_eq_true ⟨hxu, hxs⟩⟩
  obtain ⟨hst₁, hserv, -⟩ := hd.wf.role hx₁
  have hleave := leave_listed hd.wf .servers (fun _ => rfl) hx₁
  refine ⟨_, by
    simp only [exitOneClient, hst, reduceCtorEq, if_false, if_true, hrec, Except.bind, exitServer,
      hleave, freeServ, hserv, isPerson, modify, Function.update_self, hst₁, Bool.and_false,
      decide_false, Bool.false_eq_true]
    rfl, ?_, ?_, by simp⟩
  rotate_left
  · exact hd.wf.clients_nodup
  refine Dropped.single hd.wf hx₁ hown rfl rfl ?_ (fun c hc => ?_) rfl rfl ?_
  · simp only [removeClientFromList, modify, Function.update_self]
  · simp only [removeClientFromList, modify, Function.update_of_ne hc]
  · simp only [removeClientFromList, modify, List.length_singleton, List.length_nil,
      Int.natCast_one, Int.natCast_zero, Int.sub_zero]

/-! ## The loops -/

theorem serv_of_owner {dead : Nat} (hd : dead ∈ s.clients) (ho : Owner (s.client dead)) :
    s.serv dead = .ok true := by
  rw [serv, if_pos hd, ho.2]

/-- The first loop drops the users, from the head of their list on. -/
theorem usersLoop_ok (us : List Nat) : ∀ (fuel : Nat) {dead : Nat} {s : NetSt}
    {V : TreeList → List Nat} {H : List Nat}, Wf key V H s → V (.users dead) = us →
    dead ∈ s.clients → Owner (s.client dead) → us.length + 1 ≤ fuel →
    ∃ s' V' H', usersLoop key fuel dead s = .ok s' ∧ Dropped key us [] V H s V' H' s' := by
  induction us with
  | nil =>
      intro fuel dead s V H h hus hdead ho hf
      obtain ⟨k, rfl⟩ : ∃ k, fuel = k + 1 := ⟨fuel - 1, by omega⟩
      refine ⟨s, V, H, ?_, Dropped.refl h⟩
      simp only [usersLoop, serv_of_owner hdead ho, Except.bind, if_true, h.linked.head_eq, hus,
        List.head?_nil]
  | cons u us ih =>
      intro fuel dead s V H h hus hdead ho hf
      rw [List.length_cons] at hf
      obtain ⟨k, rfl⟩ : ∃ k, fuel = k + 2 := ⟨fuel - 2, by omega⟩
      have hu : u ∈ V (.users dead) := by rw [hus]; exact List.mem_cons_self ..
      have hne : dead ≠ u := by
        rintro rfl
        have hst := ho.1
        rw [(h.role hu).1] at hst
        rcases hst with hst | hst <;> cases hst
      obtain ⟨s₁, hs₁, hd₁, -⟩ := exitOneClient_user h hu k
      have hd' : dead ∉ [u] := fun e => hne (List.mem_singleton.mp e)
      have hc := hd₁.client dead hd' List.not_mem_nil
      obtain ⟨s₂, V₂, H₂, hs₂, hd₂⟩ := ih (k + 1) hd₁.wf
        (by rw [Function.update_self, hus, List.erase_cons_head])
        ((hd₁.clients dead).mpr ⟨hdead, hd', List.not_mem_nil⟩) (by rw [hc]; exact ho) (by omega)
      refine ⟨s₂, V₂, H₂, ?_, hd₁.trans hd₂⟩
      rw [usersLoop]
      simp only [serv_of_owner hdead ho, Except.bind, if_true, h.linked.head_eq, hus,
        List.head?_cons, hs₁]
      exact hs₂

theorem Dropped.hangs {us ss H' : List Nat} {V' : TreeList → List Nat} {f : Forest Nat}
    (hd : Dropped key us ss V H s V' H' s')
    (hf : f.Hangs (fun p => V (.servers p)) fun p => V (.users p))
    (hdis : ∀ c ∈ f.all, c ∉ us ∧ c ∉ ss) :
    f.Hangs (fun p => V' (.servers p)) fun p => V' (.users p) :=
  hf.congr fun _ hx => ⟨hd.list_eq fun c hc => hdis c ((hf.subset hx).1 c hc),
    hd.list_eq fun c hc => hdis c ((hf.subset hx).2 c hc)⟩

/-- The second loop drops the forest of a server, given fuel. -/
def Clears (key : UInt32) (f : Forest Nat) : Prop :=
  ∀ (fuel : Nat) {dead : Nat} {s : NetSt} {V : TreeList → List Nat} {H : List Nat},
    Wf key V H s → V (.servers dead) = f.roots → f.Hangs (fun p => V (.servers p)) (fun p => V (.users p)) →
    f.all.Nodup → dead ∉ f.all → dead ∈ s.clients → Owner (s.client dead) →
    3 * f.all.length + 1 ≤ fuel →
    ∃ s' V' H', serversLoop key fuel dead s = .ok s' ∧
      Dropped key f.allLeaves f.inner V H s V' H' s'

theorem exitRecursion_ok {f : Forest Nat} (hf : Clears key f) {us : List Nat} (fuel : Nat)
    {dead : Nat} (h : Wf key V H s) (hus : V (.users dead) = us) (hks : V (.servers dead) = f.roots)
    (hh : f.Hangs (fun p => V (.servers p)) fun p => V (.users p)) (hnd : (us ++ f.all).Nodup)
    (hdead : dead ∉ f.all) (hlive : dead ∈ s.clients) (hst : (s.client dead).status = .server)
    (ho : Owner (s.client dead)) (hfuel : 3 * f.all.length + us.length + 2 ≤ fuel) :
    ∃ s' V' H', exitRecursion key fuel dead s = .ok s' ∧
      Dropped key (us ++ f.allLeaves) f.inner V H s V' H' s' := by
  obtain ⟨k, rfl⟩ : ∃ k, fuel = k + 1 := ⟨fuel - 1, by omega⟩
  obtain ⟨-, hfnd, hdis⟩ := List.nodup_append.mp hnd
  have hout : ∀ c ∈ f.all, c ∉ us ∧ c ∉ ([] : List Nat) :=
    fun c hc => ⟨fun hu => hdis c hu c hc rfl, List.not_mem_nil⟩
  obtain ⟨s₁, V₁, H₁, hs₁, hd₁⟩ := usersLoop_ok us k h hus hlive ho (by omega)
  have hdu : dead ∉ us := by
    intro hu
    rw [← hus] at hu
    have := (h.role hu).1
    rw [hst] at this
    cases this
  have hc := hd₁.client dead hdu List.not_mem_nil
  obtain ⟨s₂, V₂, H₂, hs₂, hd₂⟩ := hf k hd₁.wf
    ((hd₁.list_eq fun c hc => by
      rw [hks] at hc
      exact hout c (f.roots_subset c hc)).trans hks)
    (hd₁.hangs hh hout) hfnd hdead ((hd₁.clients dead).mpr ⟨hlive, hdu, List.not_mem_nil⟩)
    (by rw [hc]; exact ho) (by omega)
  refine ⟨s₂, V₂, H₂, ?_, hd₁.trans hd₂⟩
  simp only [exitRecursion, hst, reduceCtorEq, if_false, serv_of_owner hlive ho, Except.bind,
    if_true, hs₁, hs₂]

theorem clears_nil : Clears key Forest.nil := by
  intro fuel dead s V H h hks _ _ _ hlive ho hf
  obtain ⟨k, rfl⟩ : ∃ k, fuel = k + 1 := ⟨fuel - 1, by omega⟩
  refine ⟨s, V, H, ?_, Dropped.refl h⟩
  simp only [serversLoop, serv_of_owner hlive ho, Except.bind, if_true, h.linked.head_eq, hks,
    Forest.roots, List.head?_nil]

/-- The induction over the forest: the first tree is dropped by the recursion
and the call for its root, and the loop goes on with the other trees. -/
theorem clears (f : Forest Nat) : Clears key f := by
  induction f with
  | nil => exact clears_nil
  | node root us below rest ihb ihr =>
      intro fuel dead s V H h hks hh hnd hdead hlive ho hfuel
      obtain ⟨hur, hkr, hhb, hhr⟩ := hh
      simp only [Forest.all, List.length_append, List.length_cons] at hfuel
      obtain ⟨k, rfl⟩ : ∃ k, fuel = k + 2 := ⟨fuel - 2, by omega⟩
      obtain ⟨hnd₁, hnd₂, hdis⟩ := List.nodup_append.mp hnd
      obtain ⟨hroot, hnd₃⟩ := List.nodup_cons.mp hnd₂
      have hin : root ∈ V (.servers dead) := by rw [hks]; exact List.mem_cons_self ..
      obtain ⟨hst, hserv, -⟩ := h.role hin
      have hor : Owner (s.client root) := ⟨Or.inl hst, hserv⟩
      have hrb : root ∉ us ++ below.all := fun hr => hdis root hr root (List.mem_cons_self ..) rfl
      have hru : root ∉ us ++ below.allLeaves := fun hr => hrb <| by
        rcases List.mem_append.mp hr with hr | hr
        · exact List.mem_append_left _ hr
        · exact List.mem_append_right _ (below.allLeaves_sublist.subset hr)
      have hri : root ∉ below.inner := fun hr =>
        hrb (List.mem_append_right _ (below.inner_sublist.subset hr))
      -- The tree below the root.
      obtain ⟨s₁, V₁, H₁, hs₁, hd₁⟩ := exitRecursion_ok ihb (k + 1) h hur hkr hhb hnd₁
        (fun hr => hrb (List.mem_append_right _ hr)) (h.live hin).1 hst hor (by omega)
      have hgone : ∀ c ∈ us ++ below.all, c ∈ us ++ below.allLeaves ∨ c ∈ below.inner := by
        intro c hc
        rcases List.mem_append.mp hc with hc | hc
        · exact Or.inl (List.mem_append_left _ hc)
        · exact (Forest.mem_all_iff.mp hc).symm.imp_left (List.mem_append_right _)
      have hu₁ : V₁ (.users root) = [] := hd₁.list_nil fun c hc =>
        hgone c (List.mem_append_left _ (by rw [← hur]; exact hc))
      have hk₁ : V₁ (.servers root) = [] := hd₁.list_nil fun c hc =>
        hgone c (List.mem_append_right _ (below.roots_subset c (by rw [← hkr]; exact hc)))
      -- The root itself.
      have hin₁ : root ∈ V₁ (.servers dead) := by
        rw [hd₁.lists, List.mem_filter]
        exact ⟨hin, decide_eq_true ⟨hru, hri⟩⟩
      have hc₁ := hd₁.client root hru hri
      obtain ⟨s₂, V₂, H₂, hs₂, hd₂⟩ := exitRecursion_ok clears_nil k hd₁.wf hu₁ hk₁ trivial
        List.nodup_nil List.not_mem_nil (hd₁.wf.live hin₁).1 (by rw [hc₁]; exact hst)
        (by rw [hc₁]; exact hor) (by simp only [Forest.all, List.length_nil]; omega)
      obtain ⟨s₃, hs₃, hd₃, -⟩ := exitOneClient_server hd₁.wf hin₁ hs₂ hd₂ List.not_mem_nil
        List.not_mem_nil fun l hl => hd₂.list_nil fun c hc => by
          rw [TreeList.nil_of_owner hu₁ hk₁ l hl] at hc
          cases hc
      -- The other trees.
      have hd := hd₁.trans (hd₂.trans hd₃)
      simp only [Forest.allLeaves, Forest.inner, List.append_nil, List.nil_append] at hd
      have hout : ∀ c ∈ rest.all, c ∉ us ++ below.allLeaves ∧ c ∉ below.inner ++ [root] := by
        intro c hc
        have hcd : c ∉ us ++ below.all := fun hb =>
          hdis c hb c (List.mem_cons_of_mem _ hc) rfl
        refine ⟨fun hb => hcd ?_, fun hb => ?_⟩
        · rcases List.mem_append.mp hb with hb | hb
          · exact List.mem_append_left _ hb
          · exact List.mem_append_right _ (below.allLeaves_sublist.subset hb)
        · rcases List.mem_append.mp hb with hb | hb
          · exact hcd (List.mem_append_right _ (below.inner_sublist.subset hb))
          · rw [List.mem_singleton.mp hb] at hc
            exact hroot hc
      have hdd : dead ∉ us ++ below.allLeaves ∧ dead ∉ below.inner ++ [root] := by
        simp only [Forest.all, List.mem_append, List.mem_cons, not_or] at hdead
        refine ⟨fun hb => ?_, fun hb => ?_⟩
        · rcases List.mem_append.mp hb with hb | hb
          · exact hdead.1.1 hb
          · exact hdead.1.2 (below.allLeaves_sublist.subset hb)
        · rcases List.mem_append.mp hb with hb | hb
          · exact hdead.1.2 (below.inner_sublist.subset hb)
          · exact hdead.2.1 (List.mem_singleton.mp hb)
      have hdr : dead ∉ rest.all := fun hr =>
        hdead (List.mem_append_right _ (List.mem_cons_of_mem _ hr))
      have hroots : update V₂ (.servers dead) ((V₂ (.servers dead)).erase root) (.servers dead) =
          rest.roots := by
        rw [hd.lists, hks, Forest.roots, List.filter_cons_of_neg (by simp), List.filter_eq_self]
        exact fun c hc => decide_eq_true (hout c (rest.roots_subset c hc))
      obtain ⟨s₄, V₄, H₄, hs₄, hd₄⟩ := ihr (k + 1) hd₃.wf hroots (hd.hangs hhr hout) hnd₃
        hdr ((hd.clients dead).mpr ⟨hlive, hdd⟩)
        (by rw [hd.client dead hdd.1 hdd.2]; exact ho) (by omega)
      refine ⟨s₄, V₄, H₄, ?_, ?_⟩
      · rw [serversLoop]
        simp only [serv_of_owner hlive ho, Except.bind, if_true, h.linked.head_eq, hks,
          Forest.roots, List.head?_cons, hs₁, hs₃]
        exact hs₄
      · have hd' := hd.trans hd₄
        simp only [List.append_assoc, List.singleton_append] at hd'
        simp only [Forest.allLeaves, Forest.inner, List.append_assoc]
        exact hd'

end Wf

end NetSt

end TrIrcd
