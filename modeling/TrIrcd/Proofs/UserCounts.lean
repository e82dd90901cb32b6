import TrIrcd.Lib.Run
import TrIrcd.Proofs.Exits

/-!
# The counts beside the user lists

`Registry H s` is what the calls keep besides `Wf` and `Tree`: who is in the
hash table, and that a client without a `servptr` has not registered. One
lemma says what joining a list keeps (`Joins`), one what leaving keeps
(`Exited`); a call is the one or the other, or adds a block nobody points at.

A client joins a list together with the count, and leaves it with the count,
so counts match lengths as long as clients that leave were on the list. The
one way out for a client that is not is `register_remote_user`, which has set
`servptr` when it finds that the user comes from the wrong direction and
exits it before the client joins: then the count goes down alone.
`RightDirection` says that a call does not do that.
-/

namespace TrIrcd

open Function (update)
open TrIrcd.Lib
open Relation (ReflTransGen)

namespace Indexed

theorem clearNext {hashOf : Nat → Nat} {T : HashTable} {held : List Nat}
    (h : Indexed hashOf T held) {c : Nat} (hc : c ∉ held) :
    Indexed hashOf { T with buckets := T.buckets.clearNext c } held := by
  obtain ⟨V, hV, hm⟩ := h
  exact ⟨V, hV.clearNext fun i hi => hc ((hm i c).mp hi).1, hm⟩

end Indexed

namespace NetSt

/-- What else holds between calls. -/
structure Registry (H : List Nat) (s : NetSt) : Prop where
  held : ∀ {c}, c ∈ H → s.Present c
  held_user : ∀ {c}, c ∈ H → (s.client c).servptr = none → (s.client c).user ≠ none
  hashed : ∀ {c}, s.Present c → (s.client c).name ≠ [] → (s.client c).user ≠ none → c ∈ H
  fresh : ∀ {c}, s.Present c → (s.client c).servptr = none → (s.client c).serv = .null
  me_present : s.Present me
  only_me : ∀ {c}, s.Present c → (s.client c).status = .me → c = me

/-- The counts beside the user lists of the servers there are. -/
def Counted (V : TreeList → List Nat) (s : NetSt) : Prop :=
  ∀ p, s.Present p → Owner (s.client p) → s.cnt (.users p) = (V (.users p)).length

section Invariant

variable {key : UInt32} {V V' : TreeList → List Nat} {H H' : List Nat} {s s' : NetSt}
  {l : TreeList} {x p : Nat} {xs : List Nat}

/-- Who is no server owns no list. -/
theorem Wf.no_owner (h : Wf key V H s) (hm : (s.client x).status ≠ .me)
    (hs : (s.client x).status ≠ .server) : ∀ k, k.owner = x → V k = [] := by
  rintro k rfl
  refine List.eq_nil_iff_forall_not_mem.mpr fun y hy => ?_
  exact (h.owner hy).1.elim hs hm

theorem Tree.me_ne (h : Wf key V H s) (t : Tree V s) (hx : x ∈ V l) : x ≠ me := by
  rintro rfl
  have hst := (h.role hx).status
  rw [t.me_owner.1] at hst
  rcases hst with hst | hst <;> cases hst

theorem Wf.present (h : Wf key V H s) (t : Tree V s) (hx : x ∈ V l) : s.Present x :=
  ⟨(h.live hx).1, (t.listed_open hx).2.1⟩

/-- The servers there are, are on a list, but for `me`. -/
theorem Wf.listed_server (h : Wf key V H s) (t : Tree V s) (hp : s.Present p)
    (hst : (s.client p).status = .server) : ∃ q, p ∈ V (.servers q) := by
  have hm : p ≠ me := by
    rintro rfl
    rw [t.me_owner.1] at hst
    cases hst
  obtain ⟨q, hq⟩ := Option.ne_none_iff_exists'.mp (t.placed hp (Or.inr hst))
  rcases t.complete hp hm hq with hu | hs
  · have := (h.role hu).1
    rw [hst] at this
    cases this
  · exact ⟨q, hs⟩

theorem Wf.owner_of_status (h : Wf key V H s) (t : Tree V s) (r : Registry H s)
    (hp : s.Present p) (hst : (s.client p).status = .server ∨ (s.client p).status = .me) :
    Owner (s.client p) := by
  refine ⟨hst, ?_⟩
  rcases hst with hst | hst
  · obtain ⟨q, hq⟩ := h.listed_server t hp hst
    exact (h.role hq).2.1
  · rw [r.only_me hp hst]
    exact t.me_owner.2

/-! ## Leaving -/

/-- Nobody that stays is on a list of one that leaves. -/
def Closed (s : NetSt) (xs : List Nat) : Prop :=
  ∀ c p, s.Present c → (s.client c).servptr = some p → p ∈ xs → c ∈ xs

namespace Exited

theorem present (e : Exited key xs V H s V' H' s') {c : Nat} (hc : s'.Present c) :
    s.Present c ∧ s'.client c = s.client c ∧ c ∉ xs := by
  have hx : c ∉ xs := by
    intro hx
    have := (e.gone c hx hc.1).1
    rw [hc.2] at this
    cases this
  obtain ⟨hcl, hcc⟩ := e.kept c hx
  refine ⟨⟨hcl.mp hc.1, ?_⟩, hcc, hx⟩
  rw [← hcc]
  exact hc.2

theorem mem (e : Exited key xs V H s V' H' s') : x ∈ V' l ↔ x ∈ V l ∧ x ∉ xs := by
  rw [e.lists, List.mem_filter, decide_eq_true_eq]

theorem tree (e : Exited key xs V H s V' H' s') (h : Wf key V H s) (t : Tree V s)
    (hcl : s.Closed xs) (hme : me ∉ xs) : Tree V' s' where
  listed_open := fun hx => by
    obtain ⟨hx, hn⟩ := e.mem.mp hx
    rw [(e.kept _ hn).2]
    exact t.listed_open hx
  rooted := fun hx => by
    obtain ⟨hx, hn⟩ := e.mem.mp hx
    rcases t.rooted hx with hr | ⟨q, hq⟩
    · exact Or.inl hr
    · exact Or.inr ⟨q, e.mem.mpr ⟨hq, fun ho =>
        hn (hcl _ _ (h.present t hx) (h.role hx).servptr ho)⟩⟩
  acyclic := by
    obtain ⟨depth, hd⟩ := t.acyclic
    exact ⟨depth, fun l y hy => hd l y (e.mem.mp hy).1⟩
  complete := fun hc hm hp => by
    obtain ⟨hc', hcc, hn⟩ := e.present hc
    rw [hcc] at hp
    exact (t.complete hc' hm hp).imp (fun hu => e.mem.mpr ⟨hu, hn⟩)
      fun hs => e.mem.mpr ⟨hs, hn⟩
  placed := fun hc hst => by
    obtain ⟨hc', hcc, -⟩ := e.present hc
    rw [hcc] at hst ⊢
    exact t.placed hc' hst
  me_owner := by
    rw [(e.kept _ hme).2]
    exact t.me_owner
  me_servptr := by
    rw [(e.kept _ hme).2]
    exact t.me_servptr

theorem registry (e : Exited key xs V H s V' H' s') (r : Registry H s) (hme : me ∉ xs) :
    Registry H' s' where
  held := fun hc => by
    obtain ⟨hc, hn⟩ := (e.held _).mp hc
    obtain ⟨hcl, hcc⟩ := e.kept _ hn
    refine ⟨hcl.mpr (r.held hc).1, ?_⟩
    rw [hcc]
    exact (r.held hc).2
  held_user := fun hc hp => by
    obtain ⟨hc, hn⟩ := (e.held _).mp hc
    rw [(e.kept _ hn).2] at hp ⊢
    exact r.held_user hc hp
  hashed := fun hc hn hu => by
    obtain ⟨hc', hcc, hx⟩ := e.present hc
    rw [hcc] at hn hu
    exact (e.held _).mpr ⟨r.hashed hc' hn hu, hx⟩
  fresh := fun hc hp => by
    obtain ⟨hc', hcc, -⟩ := e.present hc
    rw [hcc] at hp ⊢
    exact r.fresh hc' hp
  me_present := by
    obtain ⟨hcl, hcc⟩ := e.kept _ hme
    refine ⟨hcl.mpr r.me_present.1, ?_⟩
    rw [hcc]
    exact r.me_present.2
  only_me := fun hc hst => by
    obtain ⟨hc', hcc, -⟩ := e.present hc
    rw [hcc] at hst
    exact r.only_me hc' hst

theorem counted (e : Exited key xs V H s V' H' s') (n : Counted V s) : Counted V' s' := by
  intro p hp ho
  obtain ⟨hp', hcc, -⟩ := e.present hp
  rw [hcc] at ho
  have hd := e.cnt (.users p)
  rw [n p hp' ho] at hd
  omega

end Exited

/-- What holds between calls. -/
structure Sound (key : UInt32) (V : TreeList → List Nat) (H : List Nat) (s : NetSt) : Prop where
  wf : Wf key V H s
  tree : Tree V s
  registry : Registry H s
  counted : Counted V s

namespace Sound

theorem exited (i : Sound key V H s) (e : Exited key xs V H s V' H' s') (hcl : s.Closed xs)
    (hme : me ∉ xs) : Sound key V' H' s' :=
  ⟨e.wf, e.tree i.wf i.tree hcl hme, e.registry i.registry hme, e.counted i.counted⟩

/-- Whoever has a `servptr` is `me` or on a list. -/
theorem servptr_none (i : Sound key V H s) (hx : s.Present x) (hm : (s.client x).status ≠ .me)
    (hc : (s.client x).status ≠ .client) (hs : (s.client x).status ≠ .server) :
    (s.client x).servptr = none := by
  by_contra hp
  obtain ⟨p, hp⟩ := Option.ne_none_iff_exists'.mp hp
  have hne : x ≠ me := by
    rintro rfl
    exact hm i.tree.me_owner.1
  rcases i.tree.complete hx hne hp with hu | hs'
  · exact hc (i.wf.role hu).1
  · exact hs (i.wf.role hs').1

theorem unlisted (i : Sound key V H s) (hc : (s.client x).status ≠ .client)
    (hs : (s.client x).status ≠ .server) : ∀ l, x ∉ V l :=
  fun _ hx => (i.wf.role hx).status.elim hc hs

theorem closed_single (i : Sound key V H s) (hm : (s.client x).status ≠ .me)
    (hs : (s.client x).status ≠ .server) : s.Closed [x] := by
  intro c p hc hp hpx
  rw [List.mem_singleton.mp hpx] at hp
  have hno := i.wf.no_owner hm hs
  have hne : c ≠ me := by
    rintro rfl
    rw [i.tree.me_servptr] at hp
    rw [← Option.some.inj hp] at hm
    exact hm i.tree.me_owner.1
  rcases i.tree.complete hc hne hp with hc | hc
  · rw [hno _ rfl] at hc
    cases hc
  · rw [hno _ rfl] at hc
    cases hc

theorem me_notMem (i : Sound key V H s) (hm : (s.client x).status ≠ .me) : me ∉ [x] := by
  intro h
  rw [← List.mem_singleton.mp h] at hm
  exact hm i.tree.me_owner.1

/-- Flags of clients on no list do not matter, nor does `Count`. -/
theorem congr (i : Sound key V H s) (hcl : s'.clients = s.clients) (hll : s'.llist = s.llist)
    (ht : s'.clientTable = s.clientTable) (hcnt : s'.cnt = s.cnt)
    (hc : ∀ c, SamePlace (s.client c) (s'.client c))
    (he : ∀ c, (s'.client c).exited = (s.client c).exited)
    (ho : ∀ {l c}, c ∈ V l → Open (s'.client c)) : Sound key V H s' := by
  have hpres : ∀ c, s'.Present c ↔ s.Present c := fun c => by rw [Present, Present, hcl, he]
  refine ⟨i.wf.congr hcl hll ht hc, ⟨ho, i.tree.rooted, i.tree.acyclic, fun hp hm hs => ?_,
    fun hp hs => ?_, ?_, ?_⟩, ⟨fun hx => (hpres _).mpr (i.registry.held hx), fun hx hs => ?_,
    fun hp hn hu => ?_, fun hp hs => ?_, (hpres _).mpr i.registry.me_present, fun hp hs => ?_⟩, fun p hp hs => ?_⟩
  · rw [(hc _).2.2.2.1] at hs
    exact i.tree.complete ((hpres _).mp hp) hm hs
  · rw [(hc _).2.1] at hs
    rw [(hc _).2.2.2.1]
    exact i.tree.placed ((hpres _).mp hp) hs
  · rw [(hc _).2.1, (hc _).2.2.2.2]
    exact i.tree.me_owner
  · rw [(hc _).2.2.2.1]
    exact i.tree.me_servptr
  · rw [(hc _).2.2.2.1] at hs
    rw [(hc _).2.2.1]
    exact i.registry.held_user hx hs
  · rw [(hc _).1] at hn
    rw [(hc _).2.2.1] at hu
    exact i.registry.hashed ((hpres _).mp hp) hn hu
  · rw [(hc _).2.2.2.1] at hs
    rw [(hc _).2.2.2.2]
    exact i.registry.fresh ((hpres _).mp hp) hs
  · rw [(hc _).2.1] at hs
    exact i.registry.only_me ((hpres _).mp hp) hs
  · rw [Owner, (hc _).2.1, (hc _).2.2.2.2] at hs
    rw [hcnt]
    exact i.counted p ((hpres _).mp hp) hs

/-- `exit_client`, whoever it is called for. -/
theorem exitClient (i : Sound key V H s) (hx : x ∈ s.clients) :
    ∃ s' V' H', s.exitClient key x = .ok s' ∧ Sound key V' H' s' := by
  by_cases hm : (s.client x).status = .me
  · exact ⟨s, V, H, by simp only [NetSt.exitClient, if_pos hm], i⟩
  by_cases ho : Open (s.client x)
  · have hp : s.Present x := ⟨hx, ho.2.1⟩
    by_cases hs : (s.client x).status = .server
    · obtain ⟨p, hxp⟩ := i.wf.listed_server i.tree hp hs
      obtain ⟨s', V', H', us, ss, he, hex, -, -, -, hb, -, -⟩ :=
        exitClient_server i.wf i.tree hxp
      refine ⟨s', V', H', he, i.exited hex (fun c q hc hq hqx => ?_) fun hmx => ?_⟩
      · exact (hb c).mpr ⟨hc, ReflTransGen.head hq ((hb q).mp hqx).2⟩
      · exact i.tree.not_from_me (i.tree.me_ne i.wf hxp) ((hb me).mp hmx).2
    · by_cases hc : (s.client x).status = .client
      · obtain ⟨p, hsp⟩ := Option.ne_none_iff_exists'.mp (i.tree.placed hp (Or.inl hc))
        have hne : x ≠ me := by
          rintro rfl
          exact hm i.tree.me_owner.1
        rcases i.tree.complete hp hne hsp with hu | hs'
        · obtain ⟨s', V', H', he, hex⟩ := exitClient_user i.wf ho hu
          exact ⟨s', V', H', he, i.exited hex (i.closed_single hm hs) (i.me_notMem hm)⟩
        · exact absurd (i.wf.role hs').1 hs
      · obtain ⟨s', he, hex⟩ := exitClient_idle i.wf ho hm hs (i.servptr_none hp hm hc hs)
          (i.unlisted hc hs) (i.wf.no_owner hm hs)
        exact ⟨s', V, _, he, i.exited hex (i.closed_single hm hs) (i.me_notMem hm)⟩
  · -- The call returns early, after setting a flag or before.
    by_cases hb : ((s.client x).exited || (s.client x).closing || (s.client x).httpClient) = true
    · exact ⟨s, V, H, by simp only [NetSt.exitClient, if_neg hm, if_pos hb], i⟩
    · have hl : (s.client x).localClient = true ∧ (s.client x).listenerHttp = true := by
        simp only [Bool.or_eq_true, not_or, Bool.not_eq_true] at hb
        by_contra hn
        exact ho ⟨hb.1.2, hb.1.1, hb.2, by
          rw [← Bool.and_eq_true, Bool.not_eq_true] at hn
          exact hn⟩
      refine ⟨s.modify x fun c => { c with closing := true }, V, H, by
        simp only [NetSt.exitClient, if_neg hm, if_neg hb, hl.1, hl.2, if_true],
        i.congr rfl rfl rfl rfl (fun c => ?_) (fun c => ?_) fun {l c} hcl => ?_⟩
      · by_cases hc : c = x
        · subst hc
          simp only [modify, Function.update_self]
          exact ⟨rfl, rfl, rfl, rfl, rfl⟩
        · simp only [modify, Function.update_of_ne hc]
          exact ⟨rfl, rfl, rfl, rfl, rfl⟩
      · by_cases hc : c = x
        · subst hc
          simp only [modify, Function.update_self]
        · simp only [modify, Function.update_of_ne hc]
      · have hc : c ≠ x := by
          rintro rfl
          exact ho (i.tree.listed_open hcl)
        simp only [modify, Function.update_of_ne hc]
        exact i.tree.listed_open hcl

/-- A new block, on no list. -/
theorem allocate (i : Sound key V H s) (hx : x ∉ s.clients) (hcl : s'.clients = x :: s.clients)
    (hll : s'.llist = s.llist.clear x) (hcnt : s'.cnt = s.cnt)
    (hix : Indexed (fun c => (strhash key (s'.client c).name).toNat) s'.clientTable H')
    (hnd : H'.Nodup) (hH : ∀ c, c ∈ H → c ∈ H') (hH' : ∀ c, c ∈ H' → c = x ∨ c ∈ H)
    (hc : ∀ c, c ≠ x → s'.client c = s.client c) (hst : (s'.client x).status = .unknown)
    (hp : (s'.client x).servptr = none) (hs : (s'.client x).serv = .null)
    (he : (s'.client x).exited = false) (hu : x ∈ H' ↔ (s'.client x).user ≠ none) :
    Sound key V H' s' := by
  have hne : ∀ {c}, c ∈ s.clients → c ≠ x := fun hcs e => hx (e ▸ hcs)
  have hlist : ∀ {l y}, y ∈ V l → y ≠ x := fun hy => hne (i.wf.live hy).1
  have howner : ∀ {l y}, y ∈ V l → l.owner ≠ x := fun hy => hne (i.wf.owner_live hy)
  have hnot : ∀ l, x ∉ V l := fun l hl => hlist hl rfl
  have hpres : ∀ {c}, s'.Present c → c = x ∨ s.Present c ∧ c ≠ x := by
    intro c hp
    by_cases hcx : c = x
    · exact Or.inl hcx
    · refine Or.inr ⟨⟨?_, ?_⟩, hcx⟩
      · have := hp.1
        rw [hcl] at this
        exact (List.mem_cons.mp this).resolve_left hcx
      · rw [← hc c hcx]
        exact hp.2
  have hpres' : ∀ {c}, s.Present c → s'.Present c := by
    intro c hp
    refine ⟨by rw [hcl]; exact List.mem_cons_of_mem _ hp.1, ?_⟩
    rw [hc c (hne hp.1)]
    exact hp.2
  have hme := hne i.registry.me_present.1
  refine ⟨⟨?_, ?_, hix, hnd, ?_, fun hy => ?_, fun hy => ?_, fun hy => ?_, fun hy => ?_⟩,
    ⟨fun hy => ?_, i.tree.rooted, i.tree.acyclic, fun hp' hm hsp => ?_, fun hp' hsp => ?_, ?_, ?_⟩,
    ⟨fun hy => ?_, fun hy hsp => ?_, fun hp' hn hus => ?_, fun hp' hsp => ?_,
      hpres' i.registry.me_present, fun hp' hm => ?_⟩, fun p hp' ho => ?_⟩
  · rw [hll]
    exact i.wf.linked.clear hnot
  · rw [hll]
    exact Linked.clear_tidy i.wf.tidy x
  · rw [hcl]
    exact List.nodup_cons.mpr ⟨hx, i.wf.clients_nodup⟩
  · rw [hcl]
    exact ⟨List.mem_cons_of_mem _ (i.wf.live hy).1, hH _ (i.wf.live hy).2⟩
  · rw [hc _ (hlist hy)]
    exact i.wf.role hy
  · rw [hcl]
    exact List.mem_cons_of_mem _ (i.wf.owner_live hy)
  · rw [hc _ (howner hy)]
    exact i.wf.owner hy
  · rw [hc _ (hlist hy)]
    exact i.tree.listed_open hy
  · rcases hpres hp' with rfl | ⟨hp', hcx⟩
    · rw [hp] at hsp
      cases hsp
    · rw [hc _ hcx] at hsp
      exact i.tree.complete hp' hm hsp
  · rcases hpres hp' with rfl | ⟨hp', hcx⟩
    · rw [hst] at hsp
      rcases hsp with hsp | hsp <;> cases hsp
    · rw [hc _ hcx] at hsp ⊢
      exact i.tree.placed hp' hsp
  · rw [hc _ hme]
    exact i.tree.me_owner
  · rw [hc _ hme]
    exact i.tree.me_servptr
  · rcases hH' _ hy with rfl | hy
    · exact ⟨by rw [hcl]; exact List.mem_cons_self .., he⟩
    · exact hpres' (i.registry.held hy)
  · rcases hH' _ hy with rfl | hy'
    · exact hu.mp hy
    · have hcx := hne (i.registry.held hy').1
      rw [hc _ hcx] at hsp ⊢
      exact i.registry.held_user hy' hsp
  · rcases hpres hp' with rfl | ⟨hp', hcx⟩
    · exact hu.mpr hus
    · rw [hc _ hcx] at hn hus
      exact hH _ (i.registry.hashed hp' hn hus)
  · rcases hpres hp' with rfl | ⟨hp', hcx⟩
    · exact hs
    · rw [hc _ hcx] at hsp ⊢
      exact i.registry.fresh hp' hsp
  · rcases hpres hp' with rfl | ⟨hp', hcx⟩
    · rw [hst] at hm
      cases hm
    · rw [hc _ hcx] at hm
      exact i.registry.only_me hp' hm
  · rcases hpres hp' with he | ⟨hp', hcx⟩
    · have hst' := ho.1
      rw [he, hst] at hst'
      rcases hst' with hst' | hst' <;> cases hst'
    · rw [hc _ hcx] at ho
      rw [hcnt]
      exact i.counted p hp' ho

/-- An unregistered client joins a list of a server. -/
structure Joins (key : UInt32) (x : Nat) (l : TreeList) (H H' : List Nat) (s s' : NetSt) :
    Prop where
  clients : s'.clients = s.clients
  llist : s'.llist = s.llist.add l x
  client_ne : ∀ c, c ≠ x → s'.client c = s.client c
  indexed : Indexed (fun c => (strhash key (s'.client c).name).toNat) s'.clientTable H'
  held_nodup : H'.Nodup
  held : ∀ c, c ∈ H' ↔ c = x ∨ c ∈ H
  role : Role l (s'.client x)
  isOpen : Open (s'.client x)
  cnt : s'.cnt l = s.cnt l + 1
  cnt_ne : ∀ k, k ≠ l → k.owner ≠ x → s'.cnt k = s.cnt k
  cnt_own : ∀ k, k.owner = x → Owner (s'.client x) → s'.cnt k = 0

/-- The new client is on its list, and nobody else moves. -/
theorem mem_join (hnot : ∀ k, x ∉ V k) {k : TreeList} {y : Nat} :
    y ∈ update V l (x :: V l) k ↔ y = x ∧ k = l ∨ y ∈ V k ∧ y ≠ x := by
  refine mem_update_cons.trans (or_congr_right ⟨fun hy => ⟨hy, ?_⟩, And.left⟩)
  rintro rfl
  exact hnot k hy

namespace Joins

theorem present (j : Joins key x l H H' s s') {c : Nat} (hp : s'.Present c) :
    c = x ∨ s.Present c ∧ c ≠ x := by
  by_cases hcx : c = x
  · exact Or.inl hcx
  · rw [Present, j.clients, j.client_ne c hcx] at hp
    exact Or.inr ⟨hp, hcx⟩

theorem stays (j : Joins key x l H H' s s') (hx : s.Present x) {c : Nat} (hp : s.Present c) :
    s'.Present c := by
  rw [Present, j.clients]
  by_cases hcx : c = x
  · rw [hcx]
    exact ⟨hx.1, j.isOpen.2.1⟩
  · rw [j.client_ne c hcx]
    exact hp

theorem wf (j : Joins key x l H H' s s') (h : Wf key V H s) (hx : s.Present x)
    (hnot : ∀ k, x ∉ V k) (hno : ∀ k, k.owner = x → V k = []) (hl : s.Present l.owner)
    (hlx : l.owner ≠ x) (hown : Owner (s.client l.owner)) :
    Wf key (update V l (x :: V l)) H' s' := by
  have hmem : ∀ {k y}, y ∈ update V l (x :: V l) k ↔ y = x ∧ k = l ∨ y ∈ V k ∧ y ≠ x :=
    mem_join hnot
  refine ⟨?_, ?_, j.indexed, j.held_nodup, ?_, fun hy => ?_, fun hy => ?_, fun hy => ?_,
    fun hy => ?_⟩
  · rw [j.llist]
    exact h.linked.add hnot l
  · rw [j.llist]
    exact h.linked.add_tidy h.tidy l x
  · rw [j.clients]
    exact h.clients_nodup
  · rw [j.clients]
    rcases hmem.mp hy with ⟨rfl, -⟩ | ⟨hy, -⟩
    · exact ⟨hx.1, (j.held _).mpr (Or.inl rfl)⟩
    · exact ⟨(h.live hy).1, (j.held _).mpr (Or.inr (h.live hy).2)⟩
  · rcases hmem.mp hy with ⟨rfl, rfl⟩ | ⟨hy, hcx⟩
    · exact j.role
    · rw [j.client_ne _ hcx]
      exact h.role hy
  · rw [j.clients]
    rcases hmem.mp hy with ⟨-, rfl⟩ | ⟨hy, -⟩
    · exact hl.1
    · exact h.owner_live hy
  · rcases hmem.mp hy with ⟨-, rfl⟩ | ⟨hy, -⟩
    · rw [j.client_ne _ hlx]
      exact hown
    · have hne : _ ≠ x := fun e => absurd (hno _ e) (List.ne_nil_of_mem hy)
      rw [j.client_ne _ hne]
      exact h.owner hy

theorem tree (j : Joins key x l H H' s s') (t : Tree V s) (hnot : ∀ k, x ∉ V k)
    (hno : ∀ k, k.owner = x → V k = []) (hlx : l.owner ≠ x) (hme : me ≠ x)
    (hroot : l.owner = me ∨ ∃ q, l.owner ∈ V (.servers q)) :
    Tree (update V l (x :: V l)) s' := by
  have hmem : ∀ {k y}, y ∈ update V l (x :: V l) k ↔ y = x ∧ k = l ∨ y ∈ V k ∧ y ≠ x :=
    mem_join hnot
  have hrooted : ∀ {k y}, y ∈ update V l (x :: V l) k →
      k.owner = me ∨ ∃ q, k.owner ∈ V (.servers q) := by
    intro k y hy
    rcases hmem.mp hy with ⟨-, rfl⟩ | ⟨hy, -⟩
    · exact hroot
    · exact t.rooted hy
  refine ⟨fun hy => ?_, fun hy => ?_, ?_, fun hp hm hsp => ?_, fun hp hsp => ?_, ?_, ?_⟩
  · rcases hmem.mp hy with ⟨rfl, -⟩ | ⟨hy, hcx⟩
    · exact j.isOpen
    · rw [j.client_ne _ hcx]
      exact t.listed_open hy
  · refine (hrooted hy).imp_right fun hq => ?_
    obtain ⟨q, hq⟩ := hq
    exact ⟨q, hmem.mpr (Or.inr ⟨hq, fun e => hnot _ (e ▸ hq)⟩)⟩
  · -- The client is one level below the server it joins.
    obtain ⟨depth, hd⟩ := t.acyclic
    refine ⟨update depth x (depth l.owner + 1), fun k y hy => ?_⟩
    rcases hmem.mp hy with ⟨rfl, rfl⟩ | ⟨hy, hcx⟩
    · rw [Function.update_self, Function.update_of_ne hlx]
      exact Nat.lt_succ_self _
    · have hne : k.owner ≠ x := fun e => absurd (hno k e) (List.ne_nil_of_mem hy)
      rw [Function.update_of_ne hcx, Function.update_of_ne hne]
      exact hd k y hy
  · rcases j.present hp with rfl | ⟨hp, hcx⟩
    · rw [j.role.servptr] at hsp
      rw [← Option.some.inj hsp]
      cases l with
      | users p => exact Or.inl (hmem.mpr (Or.inl ⟨rfl, rfl⟩))
      | servers p => exact Or.inr (hmem.mpr (Or.inl ⟨rfl, rfl⟩))
    · rw [j.client_ne _ hcx] at hsp
      exact (t.complete hp hm hsp).imp (fun h => hmem.mpr (Or.inr ⟨h, hcx⟩))
        fun h => hmem.mpr (Or.inr ⟨h, hcx⟩)
  · rcases j.present hp with rfl | ⟨hp, hcx⟩
    · rw [j.role.servptr]
      exact Option.some_ne_none _
    · rw [j.client_ne _ hcx] at hsp ⊢
      exact t.placed hp hsp
  · rw [j.client_ne _ hme]
    exact t.me_owner
  · rw [j.client_ne _ hme]
    exact t.me_servptr

theorem registry (j : Joins key x l H H' s s') (r : Registry H s) (hx : s.Present x) :
    Registry H' s' := by
  refine ⟨fun hy => ?_, fun {c} hy hsp => ?_, fun hp hn hus => ?_, fun hp hsp => ?_,
    j.stays hx r.me_present, fun hp hm => ?_⟩
  · rcases (j.held _).mp hy with rfl | hy
    · exact j.stays hx hx
    · exact j.stays hx (r.held hy)
  · rcases (j.held _).mp hy with rfl | hy
    · rw [j.role.servptr] at hsp
      cases hsp
    · by_cases hcx : c = x
      · rw [hcx, j.role.servptr] at hsp
        cases hsp
      · rw [j.client_ne _ hcx] at hsp ⊢
        exact r.held_user hy hsp
  · rcases j.present hp with rfl | ⟨hp, hcx⟩
    · exact (j.held _).mpr (Or.inl rfl)
    · rw [j.client_ne _ hcx] at hn hus
      exact (j.held _).mpr (Or.inr (r.hashed hp hn hus))
  · rcases j.present hp with rfl | ⟨hp, hcx⟩
    · rw [j.role.servptr] at hsp
      cases hsp
    · rw [j.client_ne _ hcx] at hsp ⊢
      exact r.fresh hp hsp
  · rcases j.present hp with rfl | ⟨hp, hcx⟩
    · have hst' := j.role.status
      rw [hm] at hst'
      rcases hst' with hst' | hst' <;> cases hst'
    · rw [j.client_ne _ hcx] at hm
      exact r.only_me hp hm

theorem counted (j : Joins key x l H H' s s') (n : Counted V s)
    (hno : ∀ k, k.owner = x → V k = []) (hl : s.Present l.owner)
    (hown : Owner (s.client l.owner)) : Counted (update V l (x :: V l)) s' := by
  intro p hp hk
  by_cases hpl : TreeList.users p = l
  · subst hpl
    rw [j.cnt, n p hl hown, Function.update_self, List.length_cons]
    omega
  · rw [Function.update_of_ne hpl]
    rcases j.present hp with he | ⟨hp, hpx⟩
    · rw [j.cnt_own (.users p) he (by rw [← he]; exact hk), hno (.users p) he]
      rfl
    · rw [j.client_ne _ hpx] at hk
      rw [j.cnt_ne _ hpl hpx]
      exact n p hp hk

end Joins

theorem join (i : Sound key V H s) (j : Joins key x l H H' s s') (hx : s.Present x)
    (hst : (s.client x).status = .unknown) (hl : s.Present l.owner)
    (ho : (s.client l.owner).status = .server ∨ (s.client l.owner).status = .me) :
    Sound key (update V l (x :: V l)) H' s' := by
  have hown := i.wf.owner_of_status i.tree i.registry hl ho
  have hnot := i.unlisted (x := x) (by rw [hst]; exact Status.noConfusion)
    (by rw [hst]; exact Status.noConfusion)
  have hno := i.wf.no_owner (x := x) (by rw [hst]; exact Status.noConfusion)
    (by rw [hst]; exact Status.noConfusion)
  have hlx : l.owner ≠ x := by
    intro e
    rw [e, hst] at ho
    rcases ho with ho | ho <;> cases ho
  have hme : me ≠ x := by
    rintro rfl
    rw [i.tree.me_owner.1] at hst
    cases hst
  have hroot : l.owner = me ∨ ∃ q, l.owner ∈ V (.servers q) :=
    ho.symm.imp (i.registry.only_me hl) (i.wf.listed_server i.tree hl)
  exact ⟨j.wf i.wf hx hnot hno hl hlx hown, j.tree i.tree hnot hno hlx hme hroot,
    j.registry i.registry hx, j.counted i.counted hno hl hown⟩

end Sound

/-! ## The calls -/

/-- Fields of a client on no list do not matter, but for its name. -/
theorem Wf.touch (h : Wf key V H s) (hx : ∀ l, x ∉ V l) (hno : ∀ k, k.owner = x → V k = [])
    (hcl : s'.clients = s.clients) (hll : s'.llist = s.llist)
    (ht : s'.clientTable = s.clientTable) (hc : ∀ c, c ≠ x → s'.client c = s.client c)
    (hn : (s'.client x).name = (s.client x).name) : Wf key V H s' where
  linked := by rw [hll]; exact h.linked
  tidy := by rw [hll]; exact h.tidy
  indexed := by
    rw [ht]
    refine h.indexed.congr fun c _ => ?_
    by_cases hcx : c = x
    · rw [hcx, hn]
    · rw [hc c hcx]
  held_nodup := h.held_nodup
  clients_nodup := by rw [hcl]; exact h.clients_nodup
  live := fun hy => by rw [hcl]; exact h.live hy
  role := fun hy => by
    rw [hc _ fun e => hx _ (e ▸ hy)]
    exact h.role hy
  owner_live := fun hy => by rw [hcl]; exact h.owner_live hy
  owner := fun {l y} hy => by
    have hl : l.owner ≠ x := by
      intro e
      rw [hno l e] at hy
      cases hy
    rw [hc _ hl]
    exact h.owner hy

theorem findServer_some (h : Wf key V H s) {server : List UInt8}
    (hf : findServer key server s = some p) :
    p ∈ H ∧ ((s.client p).status = .server ∨ (s.client p).status = .me) := by
  obtain ⟨W, hW, hm⟩ := h.indexed
  simp only [findServer] at hf
  split at hf
  · cases hf
  · rw [hW.find] at hf
    have hp := List.find?_some hf
    simp only [Bool.and_eq_true, Bool.or_eq_true, decide_eq_true_eq] at hp
    exact ⟨((hm _ p).mp (List.mem_of_find?_eq_some hf)).1, hp.1⟩

/-- The search passes a client that is no server. -/
theorem findServer_congr {server : List UInt8} (ht : s'.clientTable = s.clientTable)
    (hc : ∀ c, c ≠ x → s'.client c = s.client c)
    (hs : ¬ ((s.client x).status = .server ∨ (s.client x).status = .me))
    (hs' : ¬ ((s'.client x).status = .server ∨ (s'.client x).status = .me)) :
    findServer key server s' = findServer key server s := by
  rw [findServer, findServer, ht]
  refine if_congr Iff.rfl rfl (congrArg (fun f => s.clientTable.buckets.find _ f) ?_)
  funext c
  by_cases hcx : c = x
  · rw [hcx, ← Bool.decide_or, ← Bool.decide_or, decide_eq_false hs, decide_eq_false hs']
    rfl
  · rw [hc c hcx]

/-- A client may register. -/
theorem unregistered_iff : s.unregistered x = true ↔
    s.Present x ∧ (s.client x).status = .unknown ∧ Open (s.client x) := by
  simp only [unregistered, Bool.and_eq_true, decide_eq_true_eq, Bool.not_eq_true',
    Bool.or_eq_false_iff, Present, Open]
  tauto

theorem join_ok (hp : s.Present l.owner) (ho : Owner (s.client l.owner)) :
    s.join l x = .ok { s with
      llist := addClientToLlist l x s.llist
      cnt := update s.cnt l (s.cnt l + 1) } := by
  simp only [NetSt.join, serv_of_owner hp.1 ho, Except.bind, if_true]

/-- The call does not reject a user for coming from the wrong direction. -/
def rightDirection (key : UInt32) (s : NetSt) : NetOp → Bool
  | .registerRemoteUser c =>
      ((s.client c).user.bind fun server => findServer key server s).all fun t =>
        (s.client t).fromPtr = (s.client c).fromPtr
  | _ => true

namespace Sound

theorem newUser (i : Sound key V H s) (A : Allocator) (link : Option Nat)
    (name server : List UInt8) : ∃ H', Sound key V H' (s.newUser A key link name server) := by
  have hx := A.pick_fresh s.clients
  have hxH : A.pick s.clients ∉ H := fun h => hx (i.registry.held h).1
  have hc : ∀ c, c ≠ A.pick s.clients →
      (s.newUser A key link name server).client c = s.client c := by
    intro c hc
    simp only [NetSt.newUser, makeClient, modify, Function.update_of_ne hc]
  have hself : (s.newUser A key link name server).client (A.pick s.clients) =
      { name := name, status := .unknown, closing := false, exited := false, httpClient := false,
        localClient := link.isNone, listenerHttp := false,
        fromPtr := link.getD (A.pick s.clients), user := some server, servptr := none,
        serv := .null } := by
    simp only [NetSt.newUser, makeClient, modify, Function.update_self]
  have hold : Indexed
      (fun c => (strhash key ((s.newUser A key link name server).client c).name).toNat)
      { s.clientTable with buckets := s.clientTable.buckets.clearNext (A.pick s.clients) } H :=
    (i.wf.indexed.clearNext hxH).congr fun c hcH => by rw [hc c fun e => hxH (e ▸ hcH)]
  have hix := hold.add hxH
  simp only [hself] at hix
  refine ⟨A.pick s.clients :: H, i.allocate hx rfl rfl rfl hix
    (List.nodup_cons.mpr ⟨hxH, i.wf.held_nodup⟩) (fun c => List.mem_cons_of_mem _)
    (fun c => List.mem_cons.mp) hc ?_ ?_ ?_ ?_ ?_⟩
  all_goals rw [hself]
  exact iff_of_true (List.mem_cons_self ..) (Option.some_ne_none server)

theorem newServer (i : Sound key V H s) (A : Allocator) (name : List UInt8) :
    Sound key V H (s.newServer A name) := by
  have hx := A.pick_fresh s.clients
  have hxH : A.pick s.clients ∉ H := fun h => hx (i.registry.held h).1
  have hc : ∀ c, c ≠ A.pick s.clients → (s.newServer A name).client c = s.client c := by
    intro c hc
    simp only [NetSt.newServer, makeClient, modify, Function.update_of_ne hc]
  have hself : (s.newServer A name).client (A.pick s.clients) =
      { name := name, status := .unknown, closing := false, exited := false, httpClient := false,
        localClient := true, listenerHttp := false, fromPtr := A.pick s.clients, user := none,
        servptr := none, serv := .null } := by
    simp only [NetSt.newServer, makeClient, modify, Function.update_self]
    rfl
  refine i.allocate hx rfl rfl rfl ((i.wf.indexed.clearNext hxH).congr fun c hcH => by
    rw [hc c fun e => hxH (e ▸ hcH)]) i.wf.held_nodup (fun c h => h) (fun c => Or.inr) hc
    ?_ ?_ ?_ ?_ ?_
  all_goals rw [hself]
  exact iff_of_false hxH fun h => h rfl

theorem serverEstab (i : Sound key V H s) (hu : s.unregistered x = true)
    (huser : (s.client x).user = none) :
    ∃ s' V' H', s.serverEstab key x = .ok s' ∧ Sound key V' H' s' := by
  obtain ⟨hx, hst, ho⟩ := unregistered_iff.mp hu
  have hm : (s.client x).status ≠ .me := by rw [hst]; exact Status.noConfusion
  have hc : (s.client x).status ≠ .client := by rw [hst]; exact Status.noConfusion
  have hs : (s.client x).status ≠ .server := by rw [hst]; exact Status.noConfusion
  have hsp := i.servptr_none hx hm hc hs
  have hserv := i.registry.fresh hx hsp
  have hxH : x ∉ H := fun h => i.registry.held_user h hsp huser
  have hmx : me ≠ x := by
    rintro rfl
    exact hm i.tree.me_owner.1
  have hno := i.wf.no_owner hm hs
  have hadd := addClientToLlist_eq (l := .servers me) i.wf.tidy (i.unlisted hc hs)
  have hhead : ∀ k, k.owner = x → (s.llist.add (.servers me) x).head k = none := by
    intro k hk
    have hkm : k ≠ .servers me := by
      rintro rfl
      exact hmx hk
    rw [Links.add]
    simp only [Function.update_of_ne hkm]
    rw [i.wf.linked.head_eq, hno k hk]
    rfl
  have hjoin := join_ok (x := x) (l := .servers me)
    (s := s.modify x fun c => { c with status := .server, servptr := some me })
    ⟨i.registry.me_present.1, by
      simp only [TreeList.owner, modify, Function.update_of_ne hmx]
      exact i.registry.me_present.2⟩
    (by
      simp only [TreeList.owner, modify, Function.update_of_ne hmx]
      exact ⟨Or.inr i.tree.me_owner.1, i.tree.me_owner.2⟩)
  refine ⟨_, _, _, by
    simp only [NetSt.serverEstab, hjoin, Except.map]
    rfl, i.join (show Joins key x (.servers me) H (x :: H) s _ from ?_) hx hst i.registry.me_present
      (Or.inr i.tree.me_owner.1)⟩
  have hmake : ∀ {u : NetSt}, (u.client x).serv = .null → makeServer x u =
      { u.modify x fun c => { c with serv := .block } with
        llist := { u.llist with
          head := update (update u.llist.head (.users x) none) (.servers x) none }
        cnt := update (update u.cnt (.users x) 0) (.servers x) 0 } := by
    intro u hu
    simp only [makeServer, hu]
    rfl
  have hheads : update (update (s.llist.add (.servers me) x).head (.users x) none)
      (.servers x) none = (s.llist.add (.servers me) x).head := by
    have hsame : ∀ k, k.owner = x → update (s.llist.add (.servers me) x).head k none =
        (s.llist.add (.servers me) x).head :=
      fun k hk => Function.update_eq_iff.mpr ⟨(hhead k hk).symm, fun _ _ => rfl⟩
    rw [hsame _ rfl, hsame _ rfl]
  have hold : Indexed (fun c => (strhash key (update s.client x
      { s.client x with status := .server, servptr := some me, serv := .block } c).name).toNat)
      s.clientTable H := i.wf.indexed.congr fun c hcH => by
    have hcx : c ≠ x := fun e => hxH (e ▸ hcH)
    rw [Function.update_of_ne hcx]
  have hix := hold.add hxH
  simp only [Function.update_self] at hix
  rw [hmake (by simp only [modify, Function.update_self, hserv])]
  simp only [hadd, hheads, modify, Function.update_self, Function.update_idem]
  refine ⟨rfl, rfl, fun c hc => Function.update_of_ne hc .., hix,
    List.nodup_cons.mpr ⟨hxH, i.wf.held_nodup⟩, fun c => List.mem_cons, ?_, ?_, ?_,
    fun k hk hkx => ?_, fun k hk _ => ?_⟩
  · simp only [Function.update_self]
    exact ⟨rfl, rfl, rfl⟩
  · simp only [Function.update_self]
    exact ho
  · dsimp only
    rw [Function.update_of_ne fun e => hmx (TreeList.servers.inj e),
      Function.update_of_ne TreeList.noConfusion, Function.update_self]
  · dsimp only
    have hown : ∀ k', k'.owner = x → k ≠ k' := by
      rintro k' hk' rfl
      exact hkx hk'
    rw [Function.update_of_ne (hown _ rfl), Function.update_of_ne (hown _ rfl),
      Function.update_of_ne hk]
  · dsimp only
    subst hk
    cases k with
    | users p => rw [Function.update_of_ne TreeList.noConfusion, TreeList.owner, Function.update_self]
    | servers p => rw [TreeList.owner, Function.update_self]

/-- A user that joins a list: what registering locally and remotely share. -/
theorem join_user (i : Sound key V H s) (hu : s.unregistered x = true)
    (hi : s.introduced x = true) (hp : s.Present p)
    (hpo : (s.client p).status = .server ∨ (s.client p).status = .me)
    (hcl : s'.clients = s.clients) (hll : s'.llist = addClientToLlist (.users p) x s.llist)
    (ht : s'.clientTable = s.clientTable)
    (hcnt : s'.cnt = update s.cnt (.users p) (s.cnt (.users p) + 1))
    (hc : s'.client =
      update s.client x { s.client x with status := .client, servptr := some p }) :
    Sound key (update V (.users p) (x :: V (.users p))) H s' := by
  obtain ⟨hx, hst, ho⟩ := unregistered_iff.mp hu
  simp only [introduced, Bool.and_eq_true, decide_eq_true_eq] at hi
  have hxH : x ∈ H := i.registry.hashed hx hi.1 (Option.isSome_iff_ne_none.mp hi.2)
  refine i.join ⟨hcl, ?_, fun c hcx => ?_, ?_, i.wf.held_nodup, fun c => ?_, ?_, ?_, ?_,
    fun k hk _ => ?_, fun k _ hk => ?_⟩ hx hst hp hpo
  · rw [hll, addClientToLlist_eq i.wf.tidy (i.unlisted (by rw [hst]; exact Status.noConfusion)
      (by rw [hst]; exact Status.noConfusion))]
  · rw [hc, Function.update_of_ne hcx]
  · rw [ht, hc]
    refine i.wf.indexed.congr fun c _ => ?_
    by_cases hcx : c = x
    · rw [hcx, Function.update_self]
    · rw [Function.update_of_ne hcx]
  · exact ⟨Or.inr, fun h => h.elim (fun e => e ▸ hxH) id⟩
  · rw [hc, Function.update_self]
    exact ⟨rfl, hi.2, rfl⟩
  · rw [hc, Function.update_self]
    exact ho
  · rw [hcnt, Function.update_self]
  · rw [hcnt, Function.update_of_ne hk]
  · rw [hc, Function.update_self] at hk
    rcases hk.1 with hk | hk <;> cases hk

theorem registerLocalUser (i : Sound key V H s) (hu : s.unregistered x = true)
    (hi : s.introduced x = true) (verdict : Verdict) :
    ∃ s' V' H', s.registerLocalUser key verdict x = .ok s' ∧ Sound key V' H' s' := by
  obtain ⟨hx, hst, -⟩ := unregistered_iff.mp hu
  cases verdict with
  | exit => exact i.exitClient hx.1
  | ignore => exact ⟨s, V, H, rfl, i⟩
  | accept =>
      have hmx : me ≠ x := by
        rintro rfl
        rw [i.tree.me_owner.1] at hst
        cases hst
      have hjoin := join_ok (x := x) (l := .users me)
        (s := { s.modify x fun c => { c with status := .client, servptr := some me } with
          count := { s.count with localUsers := s.count.localUsers + 1 } })
        ⟨i.registry.me_present.1, by
          simp only [TreeList.owner, modify, Function.update_of_ne hmx]
          exact i.registry.me_present.2⟩
        (by
          simp only [TreeList.owner, modify, Function.update_of_ne hmx]
          exact ⟨Or.inr i.tree.me_owner.1, i.tree.me_owner.2⟩)
      refine ⟨_, _, _, by
        simp only [NetSt.registerLocalUser]
        exact congrArg (Except.map _) hjoin, i.join_user hu hi i.registry.me_present (Or.inr i.tree.me_owner.1) ?_ ?_ ?_ ?_ ?_⟩
      all_goals rfl

/-- A ghost leaves again, on no list yet and without a `servptr`. -/
theorem ghost (i : Sound key V H s) (hu : s.unregistered x = true) {s₁ : NetSt}
    (hcl : s₁.clients = s.clients) (hll : s₁.llist = s.llist)
    (ht : s₁.clientTable = s.clientTable) (hcnt : s₁.cnt = s.cnt)
    (hc : s₁.client =
      update s.client x { s.client x with status := .client, servptr := none }) :
    ∃ s' V' H', s₁.exitClient key x = .ok s' ∧ Sound key V' H' s' := by
  obtain ⟨-, hst, ho⟩ := unregistered_iff.mp hu
  have hm : (s.client x).status ≠ .me := by rw [hst]; exact Status.noConfusion
  have hs : (s.client x).status ≠ .server := by rw [hst]; exact Status.noConfusion
  have hnot := i.unlisted (x := x) (by rw [hst]; exact Status.noConfusion) hs
  have hno := i.wf.no_owner hm hs
  have hself : s₁.client x = { s.client x with status := .client, servptr := none } := by
    rw [hc, Function.update_self]
  have hne : ∀ c, c ≠ x → s₁.client c = s.client c := fun c hcx => by
    rw [hc, Function.update_of_ne hcx]
  have h₁ := i.wf.touch hnot hno hcl hll ht hne (by rw [hself])
  obtain ⟨s', he, hex⟩ := exitClient_idle h₁ (by rw [hself]; exact ho)
    (by rw [hself]; exact Status.noConfusion) (by rw [hself]; exact Status.noConfusion)
    (by rw [hself]) hnot hno
  refine ⟨s', V, _, he, i.exited ⟨hex.wf, hex.lists, hex.held, fun c hcx => ?_, hex.gone,
    fun l => ?_⟩ (i.closed_single hm hs) (i.me_notMem hm)⟩
  · obtain ⟨h1, h2⟩ := hex.kept c hcx
    rw [hcl] at h1
    exact ⟨h1, h2.trans (hne c fun e => hcx (List.mem_singleton.mpr e))⟩
  · rw [← hcnt]
    exact hex.cnt l

theorem registerRemoteUser (i : Sound key V H s) (hu : s.unregistered x = true)
    (hi : s.introduced x = true) (hd : s.rightDirection key (.registerRemoteUser x) = true) :
    ∃ s' V' H', s.registerRemoteUser key x = .ok s' ∧ Sound key V' H' s' := by
  obtain ⟨hx, hst, ho⟩ := unregistered_iff.mp hu
  have hm : (s.client x).status ≠ .me := by rw [hst]; exact Status.noConfusion
  have hs : (s.client x).status ≠ .server := by rw [hst]; exact Status.noConfusion
  have huser := hi
  simp only [introduced, Bool.and_eq_true] at huser
  obtain ⟨server, hserver⟩ := Option.isSome_iff_exists.mp huser.2
  simp only [rightDirection, hserver, Option.bind_some] at hd
  have hfind : findServer key server { s.modify x fun c => { c with status := .client } with
      count := { s.count with total := s.count.total + 1 } } = findServer key server s := by
    refine findServer_congr rfl (fun c hcx => Function.update_of_ne hcx ..) (not_or.mpr ⟨hs, hm⟩) ?_
    simp only [modify, Function.update_self]
    exact fun h => h.elim Status.noConfusion Status.noConfusion
  rw [NetSt.registerRemoteUser]
  simp only [hserver]
  rw [show (s.modify x fun c => { c with status := .client }).count = s.count from rfl, hfind]
  cases hf : findServer key server s with
  | none =>
      simp only [modify, Function.update_idem, Function.update_self]
      refine i.ghost hu ?_ ?_ ?_ ?_ ?_
      all_goals rfl
  | some t =>
      simp only [modify, Function.update_idem, Function.update_self]
      obtain ⟨htH, hts⟩ := findServer_some i.wf hf
      have htx : t ≠ x := by
        rintro rfl
        exact hts.elim hs hm
      have htp := i.registry.held htH
      have hto := i.wf.owner_of_status i.tree i.registry htp hts
      rw [hf] at hd
      simp only [Option.all_some, decide_eq_true_eq] at hd
      rw [if_neg (by rw [Function.update_of_ne htx]; exact not_not_intro hd)]
      refine ⟨_, _, _, join_ok (l := .users t) ⟨htp.1, ?_⟩ ?_,
        i.join_user hu hi htp hts ?_ ?_ ?_ ?_ ?_⟩
      · simp only [TreeList.owner, Function.update_of_ne htx]
        exact htp.2
      · simp only [TreeList.owner, Function.update_of_ne htx]
        exact hto
      all_goals rfl

/-- One call that does not reject a user for its direction keeps everything. -/
theorem step (i : Sound key V H s) (A : Allocator) (op : NetOp)
    (hd : s.rightDirection key op = true) :
    Answers (fun s' => ∃ V' H', Sound key V' H' s') (· = .notCalled) (s.step A key op) := by
  have hok : ∀ {r : Except NetFault NetSt}, (∃ s' V' H', r = .ok s' ∧ Sound key V' H' s') →
      Answers (fun s' => ∃ V' H', Sound key V' H' s') (· = .notCalled) r := by
    rintro r ⟨s', V', H', rfl, hs⟩
    exact ⟨V', H', hs⟩
  cases op with
  | newUser link name server =>
      obtain ⟨H', h⟩ := i.newUser A link name server
      exact ⟨V, H', h⟩
  | newServer name => exact ⟨V, H, i.newServer A name⟩
  | serverEstab c =>
      simp only [NetSt.step, Bool.and_eq_true, Option.isNone_iff_eq_none]
      split
      · next h => exact hok (i.serverEstab h.1 h.2)
      · rfl
  | registerLocalUser verdict c =>
      simp only [NetSt.step, Bool.and_eq_true]
      split
      · next h => exact hok (i.registerLocalUser h.1.1 h.1.2 verdict)
      · rfl
  | registerRemoteUser c =>
      simp only [NetSt.step, Bool.and_eq_true]
      split
      · next h => exact hok (i.registerRemoteUser h.1.1 h.1.2 hd)
      · rfl
  | exitClient c =>
      simp only [NetSt.step]
      split
      · next h => exact hok (i.exitClient h)
      · rfl

end Sound

/-- Before the first call there is only `me`. -/
theorem init_sound (key : UInt32) (name : List UInt8) :
    Sound key (fun _ => []) [me] (init key name) := by
  have hmem : ∀ {c : Nat}, c ∈ [me] → c = me := fun h => List.mem_singleton.mp h
  refine ⟨⟨Linked.empty, Linked.empty_tidy, ?_, List.nodup_singleton me, List.nodup_singleton me,
    fun h => absurd h List.not_mem_nil, fun h => absurd h List.not_mem_nil,
    fun h => absurd h List.not_mem_nil, fun h => absurd h List.not_mem_nil⟩,
    ⟨fun h => absurd h List.not_mem_nil, fun h => absurd h List.not_mem_nil,
      ⟨fun _ => 0, fun _ _ h => absurd h List.not_mem_nil⟩, fun hc hm _ => absurd (hmem hc.1) hm,
      fun _ _ => Option.some_ne_none me, ⟨rfl, rfl⟩, rfl⟩,
    ⟨fun hc => ⟨hc, rfl⟩, fun _ h => absurd h (Option.some_ne_none me), fun hc _ _ => hc.1,
      fun _ h => absurd h (Option.some_ne_none me), ⟨List.mem_singleton_self me, rfl⟩,
      fun hc _ => hmem hc.1⟩, fun l _ _ => rfl⟩
  have hempty : Indexed (fun _ => (strhash key name).toNat) HashTable.cleared [] :=
    Indexed.cleared
  exact hempty.add List.not_mem_nil

end Invariant

/-! ## Runs -/

/-- The lists, the table and the clients agree. -/
def Coherent (key : UInt32) (s : NetSt) : Prop := ∃ V H, Wf key V H s ∧ Tree V s ∧ Registry H s

/-- Every user list is as long as the count beside it, and every client on it
is on that server. -/
def UsersCounted (s : NetSt) : Prop :=
  ∀ p, s.Present p → (s.client p).status = .server ∨ (s.client p).status = .me →
    s.cnt (.users p) = (s.list (.users p)).length ∧
      ∀ c ∈ s.list (.users p), (s.client c).servptr = some p

theorem sound_iff {key : UInt32} {s : NetSt} :
    (∃ V H, Sound key V H s) ↔ Coherent key s ∧ UsersCounted s := by
  constructor
  · rintro ⟨V, H, i⟩
    refine ⟨⟨V, H, i.wf, i.tree, i.registry⟩, fun p hp hst => ⟨?_, fun c hc => ?_⟩⟩
    · rw [i.wf.list]
      exact i.counted p hp (i.wf.owner_of_status i.tree i.registry hp hst)
    · rw [i.wf.list] at hc
      exact (i.wf.role hc).servptr
  · rintro ⟨⟨V, H, h, t, r⟩, hu⟩
    refine ⟨V, H, h, t, r, fun p hp ho => ?_⟩
    rw [← h.list]
    exact (hu p hp ho.1).1

theorem run_sound (A : Allocator) {key : UInt32} {V : TreeList → List Nat} {H : List Nat}
    {s : NetSt} (i : Sound key V H s) (ops : List NetOp)
    (hm : Meets (NetSt.step A key) (fun s op => s.rightDirection key op = true) s ops) :
    Answers (fun s' => ∃ V' H', Sound key V' H' s') (· = .notCalled)
      (run (NetSt.step A key) s ops) := by
  refine run_answers (fun s op hs hd => ?_) ops ⟨V, H, i⟩ hm
  obtain ⟨V, H, i⟩ := hs
  exact i.step A op hd

/-- In every run without a rejection for the direction, the counts match the
lists in every state. -/
theorem run_usersCounted (A : Allocator) (key : UInt32) {s : NetSt} (hs : Coherent key s)
    (hc : UsersCounted s) (ops : List NetOp)
    (hm : Meets (NetSt.step A key) (fun s op => s.rightDirection key op = true) s ops) :
    Answers (fun s' => Coherent key s' ∧ UsersCounted s') (· = .notCalled)
      (run (NetSt.step A key) s ops) := by
  obtain ⟨V, H, i⟩ := sound_iff.mpr ⟨hs, hc⟩
  exact (run_sound A i ops hm).imp (fun _ => sound_iff.mp) fun _ he => he

/-- A server links, two users come, one of them behind the server, and the
server goes again. -/
def linkAndSplit : List NetOp :=
  [.newServer [115], .serverEstab 1, .newUser none [97] [109], .registerLocalUser .accept 2,
    .newUser (some 1) [98] [115], .registerRemoteUser 3, .exitClient 2, .exitClient 1]

theorem run_usersCounted_split :
    (run (NetSt.step Allocator.bump 0) (init 0 [109]) linkAndSplit).isOk = true ∧
      Answers (fun s => Coherent 0 s ∧ UsersCounted s) (· = .notCalled)
        (run (NetSt.step Allocator.bump 0) (init 0 [109]) linkAndSplit) := by
  obtain ⟨hs, hc⟩ := sound_iff.mp ⟨_, _, init_sound 0 [109]⟩
  exact ⟨by decide +kernel, run_usersCounted Allocator.bump 0 hs hc linkAndSplit
    (by decide +kernel)⟩

/-- Two servers link, and a user that comes from the second is said to be on
the first. The user is rejected, and the first server, without users, counts
one less than none. -/
def wrongDirection : List NetOp :=
  [.newServer [115], .serverEstab 1, .newServer [116], .serverEstab 2,
    .newUser (some 2) [98] [115], .registerRemoteUser 3]

theorem wrongDirection_miscounts :
    ∃ s, run (NetSt.step Allocator.bump 0) (init 0 [109]) wrongDirection = .ok s ∧
      s.list (.users 1) = [] ∧ s.cnt (.users 1) = -1 ∧ ¬ UsersCounted s := by
  have h : Answers (fun s => (1 ∈ s.clients ∧ (s.client 1).exited = false) ∧
      (s.client 1).status = .server ∧ s.list (.users 1) = [] ∧ s.cnt (.users 1) = -1)
      (fun _ => False)
      (run (NetSt.step Allocator.bump 0) (init 0 [109]) wrongDirection) := by decide +kernel
  cases hr : run (NetSt.step Allocator.bump 0) (init 0 [109]) wrongDirection with
  | error e =>
      rw [hr] at h
      exact h.elim
  | ok s =>
      rw [hr] at h
      obtain ⟨hp, hst, hl, hcnt⟩ := h
      refine ⟨s, rfl, hl, hcnt, fun hu => ?_⟩
      have := (hu 1 hp (Or.inl hst)).1
      rw [hl, hcnt] at this
      cases this

end NetSt

end TrIrcd
