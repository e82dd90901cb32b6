import Mathlib.Data.List.Find
import Mathlib.Data.List.Nodup
import Mathlib.Data.List.Perm.Basic
import TrIrcd.Lib.Run
import TrIrcd.Src.Listener

/-!
# Listeners and the clients they count

A listener counts the clients that point to it, and nobody points to one that
was freed (`Sound`). Connections, exits and closes keep that, and free what is
closed and counts nobody (`Frees`).

Three things do not. A connection whose handshake fails is counted and its
client freed. The web server may answer the client of an earlier connection of
the same host, which is then counted twice; and it frees its clients without
taking them back from the listener. `Balanced` says of a call that it does none
of these, and that the pointer it is given is one to something that is there.
-/

namespace TrIrcd

open Function (update)
open TrIrcd.Lib

/-- A listener as it is when it is freed: closed, and it counts nobody. -/
structure Listener.Done (li : Listener) : Prop where
  refCount : li.refCount = 0
  active : li.active = false
  fd : li.fd = -1

namespace ListenSt

/-- How many clients point to a listener. -/
def refs (s : ListenSt) (l : Nat) : Nat :=
  s.clients.countP fun c => (s.client c).listener = some l

structure Sound (s : ListenSt) : Prop where
  pollList_nodup : s.pollList.Nodup
  clients_nodup : s.clients.Nodup
  count : ∀ l ∈ s.pollList, (s.listener l).refCount = s.refs l
  alive : ∀ c ∈ s.clients, ∀ l, (s.client c).listener = some l → l ∈ s.pollList
  closed : ∀ l ∈ s.pollList, (s.listener l).active = false → (s.listener l).fd = -1
  exited : ∀ c ∈ s.exitList, c ∈ s.clients ∧ (s.client c).listener = none
  httpd : ∀ c ∈ s.hclientList, c ∈ s.clients ∧ (s.client c).httpClient = true ∧
    (s.client c).listener ≠ none

theorem init_sound : Sound init where
  pollList_nodup := List.nodup_nil
  clients_nodup := List.nodup_nil
  count := nofun
  alive := nofun
  closed := nofun
  exited := nofun
  httpd := nofun

/-- Listeners may go, if they are done with. -/
structure Frees (s s' : ListenSt) : Prop where
  subset : s'.pollList ⊆ s.pollList
  frame : ∀ l, l ∉ s.pollList → s'.listener l = s.listener l
  done : ∀ l ∈ s.pollList, l ∉ s'.pollList → (s'.listener l).Done

variable {s s' s'' : ListenSt} {l c : Nat}

theorem Frees.refl (s : ListenSt) : Frees s s :=
  ⟨List.Subset.refl _, fun _ _ => rfl, fun _ h h' => absurd h h'⟩

theorem Frees.trans (h : Frees s s') (h' : Frees s' s'') : Frees s s'' where
  subset := List.Subset.trans h'.subset h.subset
  frame l hl := (h'.frame l fun e => hl (h.subset e)).trans (h.frame l hl)
  done l hl hl'' := by
    by_cases hl' : l ∈ s'.pollList
    · exact h'.done l hl' hl''
    · rw [h'.frame l hl']
      exact h.done l hl hl'

/-! ## Counting -/

/-- One client changes: it counts where it points to now. -/
theorem refs_setClient (hnd : s.clients.Nodup) (hc : c ∈ s.clients) (cl : ListenClient)
    (l : Nat) :
    (s.setClient c cl).refs l + (if (s.client c).listener = some l then 1 else 0) =
      s.refs l + if cl.listener = some l then 1 else 0 := by
  have hperm := List.perm_cons_erase hc
  have hrest : ∀ d ∈ s.clients.erase c, update s.client c cl d = s.client d := fun d hd =>
    Function.update_of_ne ((hnd.mem_erase_iff.mp hd).1) ..
  have hcount : (s.clients.erase c).countP
      (fun d => ((s.setClient c cl).client d).listener = some l) =
      (s.clients.erase c).countP fun d => (s.client d).listener = some l := by
    refine List.countP_congr fun d hd => ?_
    rw [show (s.setClient c cl).client d = s.client d from hrest d hd]
  have hself : (s.setClient c cl).client c = cl := Function.update_self ..
  rw [refs, refs, show (s.setClient c cl).clients = s.clients from rfl, hperm.countP_eq,
    hperm.countP_eq, List.countP_cons, List.countP_cons, hcount, hself]
  simp only [decide_eq_true_eq]
  omega

/-- A client that points where it did. -/
theorem refs_setClient_same (cl : ListenClient) (h : cl.listener = (s.client c).listener)
    (l : Nat) : (s.setClient c cl).refs l = s.refs l := by
  refine List.countP_congr fun d _ => ?_
  have hd : ((s.setClient c cl).client d).listener = (s.client d).listener := by
    by_cases hd : d = c
    · subst hd
      exact (congrArg ListenClient.listener (Function.update_self ..)).trans h
    · exact congrArg ListenClient.listener (Function.update_of_ne hd ..)
  rw [hd]

theorem refs_pos (hc : c ∈ s.clients) (hl : (s.client c).listener = some l) : 0 < s.refs l :=
  List.countP_pos_iff.mpr ⟨c, hc, by simpa using hl⟩

/-! ## Listeners -/

/-- The listener changes, but for its count. -/
theorem Sound.setListener (h : Sound s) {li : Listener}
    (hcount : li.refCount = (s.listener l).refCount)
    (hclosed : li.active = false → li.fd = -1) : Sound (s.setListener l li) where
  pollList_nodup := h.pollList_nodup
  clients_nodup := h.clients_nodup
  count m hm := by
    show (update s.listener l li m).refCount = s.refs m
    by_cases he : m = l
    · subst he
      rw [Function.update_self, hcount, h.count m hm]
    · rw [Function.update_of_ne he, h.count m hm]
  alive := h.alive
  closed m hm := by
    show (update s.listener l li m).active = false → (update s.listener l li m).fd = -1
    by_cases he : m = l
    · subst he
      rw [Function.update_self]
      exact hclosed
    · rw [Function.update_of_ne he]
      exact h.closed m hm
  exited := h.exited
  httpd := h.httpd

/-- A listener that counts nobody can go. -/
theorem Sound.freeListener (h : Sound s) (hl : l ∈ s.pollList)
    (hzero : (s.listener l).refCount = 0) : Sound (s.freeListener l) where
  pollList_nodup := h.pollList_nodup.erase l
  clients_nodup := h.clients_nodup
  count m hm := h.count m (List.mem_of_mem_erase hm)
  alive c hc m hm := by
    refine (h.pollList_nodup.mem_erase_iff).mpr ⟨?_, h.alive c hc m hm⟩
    rintro rfl
    have hpos : 0 < s.refs m := refs_pos hc hm
    have hcount := h.count m hl
    omega
  closed m hm := h.closed m (List.mem_of_mem_erase hm)
  exited := h.exited
  httpd := h.httpd

theorem closeListener_sound (h : Sound s) (hl : l ∈ s.pollList) :
    ∃ s', s.closeListener l = .ok s' ∧ Sound s' ∧ Frees s s' ∧
      ∀ m ∈ s.pollList, m ≠ l → m ∈ s'.pollList := by
  have hset := @Sound.setListener s l h { s.listener l with fd := -1, active := false } rfl
    fun _ => rfl
  have hself : (s.setListener l { s.listener l with fd := -1, active := false }).listener l =
      { s.listener l with fd := -1, active := false } := Function.update_self ..
  have hframe : ∀ m, m ∉ s.pollList →
      update s.listener l { s.listener l with fd := -1, active := false } m = s.listener m :=
    fun m hm => Function.update_of_ne (by rintro rfl; exact hm hl) ..
  rw [closeListener, if_neg (not_not.mpr hl)]
  by_cases hzero : (s.listener l).refCount = 0
  · refine ⟨_, if_neg (not_not.mpr hzero), hset.freeListener hl (by rw [hself]; exact hzero),
      ⟨List.erase_subset, hframe, fun m hm hgone => ?_⟩, fun m hm hne => ?_⟩
    · obtain rfl : m = l := by
        by_contra hne
        exact hgone ((List.mem_erase_of_ne hne).mpr hm)
      show Listener.Done (update s.listener m _ m)
      rw [Function.update_self]
      exact ⟨hzero, rfl, rfl⟩
    · exact (List.mem_erase_of_ne hne).mpr hm
  · exact ⟨_, if_pos hzero, hset, ⟨List.Subset.refl _, hframe, fun _ hm hgone => absurd hm hgone⟩,
      fun _ hm _ => hm⟩

theorem closeLoop_sound (ls : List Nat) :
    ∀ {s : ListenSt}, Sound s → ls.Nodup → (∀ l ∈ ls, l ∈ s.pollList) →
      ∃ s', closeLoop ls s = .ok s' ∧ Sound s' ∧ Frees s s' := by
  induction ls with
  | nil => exact fun h _ _ => ⟨_, rfl, h, Frees.refl _⟩
  | cons l ls ih =>
      intro s h hnd hmem
      obtain ⟨hl, hnd⟩ := List.nodup_cons.mp hnd
      obtain ⟨hlist, hmem⟩ := List.forall_mem_cons.mp hmem
      rw [closeLoop, if_neg (not_not.mpr hlist)]
      split
      · exact ih h hnd hmem
      · obtain ⟨s', hok, h', hfree, hkept⟩ := closeListener_sound h hlist
        obtain ⟨s'', hok', h'', hfree'⟩ := ih h' hnd fun m hm =>
          hkept m (hmem m hm) fun e => hl (e ▸ hm)
        refine ⟨s'', ?_, h'', hfree.trans hfree'⟩
        rw [hok]
        exact hok'

theorem openListener_sound (h : Sound s) (hl : l ∈ s.pollList) (inet : Option Nat) :
    ∃ s', s.openListener l inet = .ok s' ∧ Sound s' ∧
      (∀ m ∈ s.pollList, m ∉ s'.pollList → (s'.listener m).Done) := by
  have hset := @Sound.setListener s l h { s.listener l with fd := -1 } rfl fun _ => rfl
  cases inet with
  | some fd =>
      refine ⟨_, rfl, hset.setListener rfl nofun, fun m hm hgone => absurd hm hgone⟩
  | none =>
      obtain ⟨s', hok, h', hfree, -⟩ := closeListener_sound hset hl
      exact ⟨s', hok, h', hfree.done⟩

theorem findListener_mem {port : Nat} {addr : List UInt8} (hf : s.findListener port addr = some l) :
    l ∈ s.pollList := by
  rw [findListener] at hf
  split at hf
  · next m hm =>
      cases hf
      exact List.mem_of_mem_filter (List.mem_of_find?_eq_some hm)
  · exact List.mem_of_mem_filter (List.mem_of_getLast? hf)

theorem addListener_sound (A : Allocator) (port : Nat) (vaddr : List UInt8)
    (addr : Option (List UInt8)) (http clientSsl : Bool) (inet : Option Nat) (h : Sound s) :
    ∃ s', s.addListener A port vaddr addr http clientSsl inet = .ok s' ∧ Sound s' ∧
      (∀ m ∈ s.pollList, m ∉ s'.pollList → (s'.listener m).Done) := by
  have hsame : ∃ s', Except.ok s = (.ok s' : Except ListenStop ListenSt) ∧ Sound s' ∧
      (∀ m ∈ s.pollList, m ∉ s'.pollList → (s'.listener m).Done) :=
    ⟨s, rfl, h, fun m hm hgone => absurd hm hgone⟩
  rw [addListener.eq_def]
  split
  · exact hsame
  · cases hf : s.findListener port vaddr with
    | some l =>
        simp only
        split
        · exact hsame
        · exact openListener_sound h (findListener_mem hf) inet
    | none =>
        cases addr with
        | none => exact hsame
        | some addr =>
            have hnew := A.pick_fresh s.pollList
            have hoff : ∀ m ∈ s.pollList, m ≠ A.pick s.pollList := fun m hm e => hnew (e ▸ hm)
            have hadd : Sound { s with
                listener := update s.listener (A.pick s.pollList)
                  ⟨-1, port, addr, 0, false, http, clientSsl⟩
                pollList := A.pick s.pollList :: s.pollList } :=
              { h with
                pollList_nodup := List.nodup_cons.mpr ⟨hnew, h.pollList_nodup⟩
                count := fun m hm => by
                  rcases List.mem_cons.mp hm with rfl | hm
                  · simp only [Function.update_self]
                    refine (Int.natCast_eq_zero.mpr (List.countP_eq_zero.mpr fun c hc => ?_)).symm
                    simp only [decide_eq_true_eq]
                    exact fun e => hnew (h.alive c hc _ e)
                  · simp only [Function.update_of_ne (hoff m hm)]
                    exact h.count m hm
                alive := fun c hc m hm => List.mem_cons_of_mem _ (h.alive c hc m hm)
                closed := fun m hm => by
                  rcases List.mem_cons.mp hm with rfl | hm
                  · simp
                  · simp only [Function.update_of_ne (hoff m hm)]
                    exact h.closed m hm }
            obtain ⟨s', hok, h', hdone⟩ := openListener_sound hadd (List.mem_cons_self ..) inet
            exact ⟨s', hok, h', fun m hm => hdone m (List.mem_cons_of_mem _ hm)⟩

/-! ## Clients -/

/-- A client changes, but not where it points. -/
theorem Sound.setClient (h : Sound s) {cl : ListenClient}
    (hlistener : cl.listener = (s.client c).listener)
    (hhttp : (s.client c).httpClient = true → cl.httpClient = true) : Sound (s.setClient c cl) := by
  have hsame : ∀ d, ((s.setClient c cl).client d).listener = (s.client d).listener := by
    intro d
    by_cases hd : d = c
    · subst hd
      exact (congrArg ListenClient.listener (Function.update_self ..)).trans hlistener
    · exact congrArg ListenClient.listener (Function.update_of_ne hd ..)
  exact
    { pollList_nodup := h.pollList_nodup
      clients_nodup := h.clients_nodup
      count := fun l hl => (h.count l hl).trans
        (congrArg Nat.cast (refs_setClient_same cl hlistener l).symm)
      alive := fun d hd l hl => h.alive d hd l ((hsame d).symm.trans hl)
      closed := h.closed
      exited := fun d hd => ⟨(h.exited d hd).1, (hsame d).trans (h.exited d hd).2⟩
      httpd := fun d hd => by
        refine ⟨(h.httpd d hd).1, ?_, fun e => (h.httpd d hd).2.2 ((hsame d).symm.trans e)⟩
        show (update s.client c cl d).httpClient = true
        by_cases he : d = c
        · subst he
          rw [Function.update_self]
          exact hhttp (h.httpd d hd).2.1
        · rw [Function.update_of_ne he]
          exact (h.httpd d hd).2.1 }

/-- A client begins or ceases to point to a listener, which counts it. -/
theorem Sound.point (h : Sound s) {cl : ListenClient} {li : Listener} (hc : c ∈ s.clients)
    (hl : l ∈ s.pollList) (hold : ∀ m, (s.client c).listener = some m → m = l)
    (hnew : ∀ m, cl.listener = some m → m = l)
    (hcount : li.refCount + ((if (s.client c).listener = some l then 1 else 0 : Nat) : Int) =
      (s.listener l).refCount + ((if cl.listener = some l then 1 else 0 : Nat) : Int))
    (hclosed : li.active = false → li.fd = -1) (hexit : c ∈ s.exitList → cl.listener = none)
    (hhttpd : c ∉ s.hclientList) : Sound ((s.setClient c cl).setListener l li) where
  pollList_nodup := h.pollList_nodup
  clients_nodup := h.clients_nodup
  count m hm := by
    have hrefs := refs_setClient h.clients_nodup hc cl m
    have hm' := h.count m hm
    show (update s.listener l li m).refCount = (s.setClient c cl).refs m
    by_cases he : m = l
    · subst he
      rw [Function.update_self]
      omega
    · rw [if_neg fun e => he (hold m e), if_neg fun e => he (hnew m e)] at hrefs
      rw [Function.update_of_ne he]
      omega
  alive d hd m hm := by
    replace hm : (update s.client c cl d).listener = some m := hm
    by_cases he : d = c
    · rw [he, Function.update_self] at hm
      exact hnew m hm ▸ hl
    · rw [Function.update_of_ne he] at hm
      exact h.alive d hd m hm
  closed m hm := by
    show (update s.listener l li m).active = false → (update s.listener l li m).fd = -1
    by_cases he : m = l
    · subst he
      rw [Function.update_self]
      exact hclosed
    · rw [Function.update_of_ne he]
      exact h.closed m hm
  exited d hd := by
    show d ∈ s.clients ∧ (update s.client c cl d).listener = none
    by_cases he : d = c
    · subst he
      rw [Function.update_self]
      exact ⟨hc, hexit hd⟩
    · rw [Function.update_of_ne he]
      exact h.exited d hd
  httpd d hd := by
    have hne : d ≠ c := by
      rintro rfl
      exact hhttpd hd
    show d ∈ s.clients ∧ (update s.client c cl d).httpClient = true ∧
      (update s.client c cl d).listener ≠ none
    rw [Function.update_of_ne hne]
    exact h.httpd d hd

/-- A client that points nowhere goes on the list of those that exited. -/
theorem Sound.exit (h : Sound s) (hc : c ∈ s.clients) (hnone : (s.client c).listener = none) :
    Sound { s.setClient c { s.client c with exited := true } with exitList := c :: s.exitList } :=
  have hset := @Sound.setClient s c h { s.client c with exited := true } rfl id
  { hset with
    exited := fun d hd => by
      rcases List.mem_cons.mp hd with rfl | hd
      · refine ⟨hc, ?_⟩
        show (update s.client d { s.client d with exited := true } d).listener = none
        rw [Function.update_self]
        exact hnone
      · exact hset.exited d hd }

/-- A new client, on no list but that of the clients. -/
theorem Sound.make (h : Sound s) (hc : c ∉ s.clients) {cl : ListenClient}
    (hnone : cl.listener = none) :
    Sound { s with client := update s.client c cl, clients := c :: s.clients } := by
  have hold : ∀ d ∈ s.clients, update s.client c cl d = s.client d := fun d hd =>
    Function.update_of_ne (by rintro rfl; exact hc hd) ..
  exact
    { pollList_nodup := h.pollList_nodup
      clients_nodup := List.nodup_cons.mpr ⟨hc, h.clients_nodup⟩
      count := fun l hl => by
        rw [h.count l hl, refs, refs, List.countP_cons_of_neg (by simp [hnone])]
        exact congrArg Nat.cast (List.countP_congr fun d hd => by simp only [hold d hd])
      alive := fun d hd l hl => by
        rcases List.mem_cons.mp hd with rfl | hd
        · simp only [Function.update_self, hnone, reduceCtorEq] at hl
        · simp only [hold d hd] at hl
          exact h.alive d hd l hl
      closed := h.closed
      exited := fun d hd => by
        have hin := (h.exited d hd).1
        simp only [hold d hin]
        exact ⟨List.mem_cons_of_mem _ hin, (h.exited d hd).2⟩
      httpd := fun d hd => by
        have hin := (h.httpd d hd).1
        simp only [hold d hin]
        exact ⟨List.mem_cons_of_mem _ hin, (h.httpd d hd).2⟩ }

/-! ## The calls -/

/-- The call answers, counts are as they were promised, and the listeners it
frees were done with. -/
def Keeps (s : ListenSt) : Except ListenStop ListenSt → Prop :=
  Answers (fun s' => Sound s' ∧ ∀ l ∈ s.pollList, l ∉ s'.pollList → (s'.listener l).Done)
    fun _ => False

theorem Sound.keeps (h : Sound s) : Keeps s (.ok s) :=
  ⟨h, fun _ hl hgone => absurd hl hgone⟩

theorem attachClient_sound (conf : ListenConf) (peer : Accepted) (h : Sound s)
    (hc : c ∈ s.clients) (hnone : (s.client c).listener = none) (hl : l ∈ s.pollList)
    (hexit : c ∉ s.exitList) (hhttpd : c ∉ s.hclientList)
    (hssl : (s.listener l).clientSsl = true → conf.doingSsl = true →
      peer.sslNew = true ∧ peer.sslAccept = true) :
    Sound (s.attachClient conf l peer c) ∧ (s.attachClient conf l peer c).pollList = s.pollList := by
  have hself : (update s.listener l
      { s.listener l with refCount := (s.listener l).refCount + 1 } l).clientSsl =
      (s.listener l).clientSsl := by
    rw [Function.update_self]
  have hset := @Sound.point s l c h { s.client c with listener := some l }
    { s.listener l with refCount := (s.listener l).refCount + 1 } hc hl
    (fun m hm => by rw [hnone] at hm; cases hm) (fun m hm => (Option.some.inj hm).symm)
    (by simp [hnone]) (h.closed l hl) (fun he => absurd he hexit) hhttpd
  rw [attachClient]
  dsimp only
  split
  next hyes =>
    obtain ⟨hnew, hacc⟩ := hssl (hself.symm.trans hyes.1) hyes.2.1
    rw [if_neg (not_not.mpr hnew), if_neg (not_not.mpr hacc)]
    exact ⟨hset.setClient rfl id, rfl⟩
  · exact ⟨hset, rfl⟩

theorem regained_make (h : Sound s) (conf : ListenConf) {cl : ListenClient} (hc : c ∉ s.clients)
    (l : Nat) (hostip : List UInt8) :
    regained conf l hostip { s with client := update s.client c cl, clients := c :: s.clients } =
      s.regained conf l hostip := by
  rw [regained, regained, regainHttpdListener, regainHttpdListener]
  refine congrArg (ite _ · none) (List.find?_congr fun d hd => ?_)
  have hne : d ≠ c := by
    rintro rfl
    exact hc (h.httpd d hd).1
  simp only [Function.update_of_ne hne]

theorem addConnection_sound (A : Allocator) (conf : ListenConf) (peer : Accepted) (h : Sound s)
    (hl : l ∈ s.pollList)
    (hpeer : ∀ hostip ∈ peer.hostip, s.regained conf l hostip = none ∧
      ((s.listener l).clientSsl → conf.doingSsl → peer.sslNew ∧ peer.sslAccept)) :
    Keeps s (s.addConnection A conf l peer) := by
  rw [addConnection, if_neg (not_not.mpr hl)]
  cases hp : peer.hostip with
  | none => exact h.keeps
  | some hostip =>
      have hnew := A.pick_fresh s.clients
      have hmake := @Sound.make s _ h hnew ⟨none, hostip, false, false, false, false⟩ rfl
      obtain ⟨hregained, hssl⟩ := hpeer hostip hp
      have hnone := (@regained_make s _ h conf ⟨none, hostip, false, false, false, false⟩ hnew l
        hostip).trans hregained
      simp only [hnone]
      obtain ⟨hok, hlist⟩ := attachClient_sound conf peer hmake (List.mem_cons_self ..)
        (by simp only [Function.update_self]) hl (fun he => hnew (h.exited _ he).1) (fun he => hnew (h.httpd _ he).1) hssl
      refine ⟨hok, fun m hm hgone => absurd ?_ hgone⟩
      rw [hlist]
      exact hm

theorem dropListener_sound (h : Sound s) (hc : c ∈ s.clients) (hhttpd : c ∉ s.hclientList) :
    Answers (fun s' => Sound s' ∧ (∀ l ∈ s.pollList, l ∉ s'.pollList → (s'.listener l).Done) ∧
      c ∈ s'.clients ∧ (s'.client c).listener = none) (fun _ => False) (s.dropListener c) := by
  rw [dropListener]
  cases hcl : (s.client c).listener with
  | none => exact ⟨h, fun _ hl hgone => absurd hl hgone, hc, hcl⟩
  | some l =>
      have hl := h.alive c hc l hcl
      have hpos : 0 < (s.listener l).refCount := by
        have hrefs := refs_pos hc hcl
        have hcount := h.count l hl
        omega
      have hset := @Sound.point s l c h { s.client c with listener := none }
        { s.listener l with refCount := (s.listener l).refCount - 1 } hc hl
        (fun m hm => by rw [hcl] at hm; exact (Option.some.inj hm).symm) nofun
        (by simp [hcl]) (h.closed l hl) (fun _ => rfl) hhttpd
      have hself : (update s.client c { s.client c with listener := none } c).listener = none := by
        rw [Function.update_self]
      simp only
      rw [if_neg (not_not.mpr hpos)]
      split
      next hlast =>
        have hli : update s.listener l
            { s.listener l with refCount := (s.listener l).refCount - 1 } l =
            { s.listener l with refCount := (s.listener l).refCount - 1 } :=
          Function.update_self ..
        have hactive : (s.listener l).active = false := by simpa using hlast.2
        refine ⟨hset.freeListener hl ?_, fun m hm hgone => ?_, hc, hself⟩
        · show (update s.listener l _ l).refCount = 0
          rw [hli]
          exact hlast.1
        · obtain rfl : m = l := by
            by_contra hne
            exact hgone ((List.mem_erase_of_ne hne).mpr hm)
          show Listener.Done (update s.listener m _ m)
          rw [hli]
          exact ⟨hlast.1, hactive, h.closed m hl hactive⟩
      · exact ⟨hset, fun _ hl hgone => absurd hl hgone, hc, hself⟩

theorem exitClient_sound (h : Sound s) (hc : c ∈ s.clients) : Keeps s (s.exitClient c) := by
  rw [exitClient, if_neg (not_not.mpr hc)]
  split
  · exact h.keeps
  next hopen =>
    have hhttp : (s.client c).httpClient ≠ true := fun e => hopen (.inr (.inr e))
    have hset := @Sound.setClient s c h { s.client c with closing := true } rfl id
    have hvalid : ¬∃ l ∈ ((s.setClient c { s.client c with closing := true }).client c).listener,
        l ∉ s.pollList := by
      rintro ⟨l, hl, hgone⟩
      exact hgone (hset.alive c hc l hl)
    dsimp only
    split
    next hgone => exact absurd hgone hvalid
    split
    · exact hset.keeps
    · refine (dropListener_sound hset hc fun he => hhttp (h.httpd c he).2.1).map ?_
      rintro s' ⟨h', hdone, hc', hnone⟩
      exact ⟨h'.exit hc' hnone, hdone⟩

theorem removeExitedClients_sound (h : Sound s) : Sound s.removeExitedClients where
  pollList_nodup := h.pollList_nodup
  clients_nodup := h.clients_nodup.filter _
  count l hl := by
    rw [show s.removeExitedClients.listener l = s.listener l from rfl, h.count l hl]
    refine congrArg Nat.cast ?_
    rw [refs, refs, removeExitedClients, List.countP_filter]
    refine List.countP_congr fun c hc => ?_
    -- a client that is freed points nowhere
    have hnone : (s.client c).listener = some l → c ∉ s.exitList := by
      intro hl he
      rw [(h.exited c he).2] at hl
      cases hl
    simp only [Bool.and_eq_true, decide_eq_true_eq]
    exact ⟨fun e => ⟨e, fun hgone => hnone e hgone.1⟩, And.left⟩
  alive c hc := h.alive c (List.mem_of_mem_filter hc)
  closed := h.closed
  exited c hc := by
    obtain ⟨hc, hstays⟩ := List.mem_filter.mp hc
    exact ⟨List.mem_filter.mpr ⟨(h.exited c hc).1, by simp_all⟩, (h.exited c hc).2⟩
  httpd c hc := by
    obtain ⟨hin, hhttp, hsome⟩ := h.httpd c hc
    refine ⟨List.mem_filter.mpr ⟨hin, ?_⟩, hhttp, hsome⟩
    simp only [decide_eq_true_eq]
    exact fun hgone => hsome (h.exited c hgone.1).2

theorem finalizeHttpClient_sound (h : Sound s) (hc : c ∈ s.clients)
    (hhttp : s.isListenerHttp (s.client c).listener) : Sound (s.finalizeHttpClient c) := by
  have hset := @Sound.setClient s c h
    { s.client c with httpClient := true, closing := false, exited := false } rfl fun _ => rfl
  have hsome : (s.client c).listener ≠ none := by
    intro hnone
    rw [hnone] at hhttp
    cases hhttp
  rw [finalizeHttpClient]
  dsimp only
  split
  · exact hset
  · exact
      { hset with
        httpd := fun d hd => by
          rcases List.mem_cons.mp hd with rfl | hd
          · refine ⟨hc, ?_⟩
            show (update s.client d _ d).httpClient = true ∧ (update s.client d _ d).listener ≠ none
            rw [Function.update_self]
            exact ⟨rfl, hsome⟩
          · exact hset.httpd d hd }

/-- Nobody of the web server is late. -/
theorem removeHttpdClients_eq {late : Nat → Bool} (h : ∀ c ∈ s.hclientList, ¬late c) :
    s.removeHttpdClients late = s := by
  have hclients : s.clients.filter (fun c => ¬(c ∈ s.hclientList ∧ late c)) = s.clients := by
    refine List.filter_eq_self.mpr fun c _ => ?_
    simp only [decide_eq_true_eq]
    exact fun hgone => h c hgone.1 hgone.2
  have hlist : s.hclientList.filter (fun c => ¬late c) = s.hclientList :=
    List.filter_eq_self.mpr fun c hc => decide_eq_true (h c hc)
  rw [removeHttpdClients, hclients, hlist]

/-! ## Runs -/

/-- Every count that the call raises it gives a client, and the pointer it
takes is one to something that is there. -/
def Balanced (conf : ListenConf) (s : ListenSt) : ListenOp → Prop
  | .closeListener l => l ∈ s.pollList
  | .addConnection l peer => l ∈ s.pollList ∧ ∀ hostip ∈ peer.hostip,
      s.regained conf l hostip = none ∧
        ((s.listener l).clientSsl → conf.doingSsl → peer.sslNew ∧ peer.sslAccept)
  | .exitClient c => c ∈ s.clients
  | .finalizeHttpClient c => c ∈ s.clients ∧ s.isListenerHttp (s.client c).listener
  | .removeHttpdClients late => ∀ c ∈ s.hclientList, ¬late c
  | .addListener .. | .closeListeners | .removeExitedClients => True

instance (conf : ListenConf) (s : ListenSt) : DecidablePred (Balanced conf s) := fun op => by
  cases op <;> unfold Balanced <;> infer_instance

theorem step_keeps (A : Allocator) (conf : ListenConf) (h : Sound s) {op : ListenOp}
    (hop : Balanced conf s op) : Keeps s (s.step A conf op) := by
  cases op with
  | addListener port vaddr addr http clientSsl inet =>
      obtain ⟨s', hok, h', hdone⟩ := addListener_sound A port vaddr addr http clientSsl inet h
      rw [step, hok]
      exact ⟨h', hdone⟩
  | closeListener l =>
      obtain ⟨s', hok, h', hfree, -⟩ := closeListener_sound h hop
      rw [step, hok]
      exact ⟨h', hfree.done⟩
  | closeListeners =>
      obtain ⟨s', hok, h', hfree⟩ := closeLoop_sound s.pollList h h.pollList_nodup fun _ => id
      rw [step, closeListeners, hok]
      exact ⟨h', hfree.done⟩
  | addConnection l peer => exact addConnection_sound A conf peer h hop.1 hop.2
  | exitClient c => exact exitClient_sound h hop
  | removeExitedClients =>
      exact ⟨removeExitedClients_sound h, fun _ hl hgone => absurd hl hgone⟩
  | finalizeHttpClient c =>
      refine ⟨finalizeHttpClient_sound h hop.1 hop.2, fun l hl hgone => absurd ?_ hgone⟩
      rw [finalizeHttpClient]
      dsimp only
      split <;> exact hl
  | removeHttpdClients late =>
      rw [step, removeHttpdClients_eq hop]
      exact h.keeps

/-- As long as calls are balanced every count is exact and no client points to
a listener that was freed, and what is freed is closed and nobody's. -/
theorem listeners_exact (A : Allocator) (conf : ListenConf) (ops : List ListenOp)
    (hbalanced : Meets (ListenSt.step A conf) (Balanced conf) init ops) :
    Answers (fun s =>
      (∀ l ∈ s.pollList, (s.listener l).refCount = s.refs l) ∧
      (∀ c ∈ s.clients, ∀ l, (s.client c).listener = some l → l ∈ s.pollList) ∧
      ∀ op, Balanced conf s op → Answers (fun s' => ∀ l ∈ s.pollList, l ∉ s'.pollList →
        (s'.listener l).Done ∧ s'.refs l = 0) (fun _ => False) (s.step A conf op))
      (fun _ => False) (run (ListenSt.step A conf) init ops) := by
  refine (run_answers (P := fun _ => False) (fun s op h hop => ?_) ops init_sound hbalanced).imp
    (fun s h => ⟨h.count, h.alive, fun op hop => ?_⟩) fun _ => id
  · exact (step_keeps A conf h hop).imp (fun _ => And.left) fun _ => id
  · refine (step_keeps A conf h hop).imp (fun s' h' l hl hgone => ⟨h'.2 l hl hgone, ?_⟩) fun _ => id
    refine List.countP_eq_zero.mpr fun c hc hcl => hgone ?_
    exact h'.1.alive c hc l (of_decide_eq_true hcl)

end ListenSt

/-- A port with a client: the port is closed and counts the client still, and goes when
the client does. -/
theorem listeners_exact_close :
    ∃ s s', run (ListenSt.step .bump ⟨true, true⟩) ListenSt.init
        [.addListener 6667 [] (some []) false false (some 3),
          .addConnection 1 ⟨some [], true, true⟩, .closeListener 1] = .ok s ∧
      s.pollList = [1] ∧ (s.listener 1).refCount = s.refs 1 ∧ s.refs 1 = 1 ∧
      s.step .bump ⟨true, true⟩ (.exitClient 1) = .ok s' ∧ s'.pollList = [] ∧
      (s'.listener 1).Done ∧ s'.refs 1 = 0 := by
  have hexact := ListenSt.listeners_exact .bump ⟨true, true⟩
    [.addListener 6667 [] (some []) false false (some 3), .addConnection 1 ⟨some [], true, true⟩,
      .closeListener 1] (by decide)
  have hlists : ((run (ListenSt.step .bump ⟨true, true⟩) ListenSt.init
      [.addListener 6667 [] (some []) false false (some 3), .addConnection 1 ⟨some [], true, true⟩,
        .closeListener 1]).bind fun s => (s.step .bump ⟨true, true⟩ (.exitClient 1)).map fun s' =>
          (s.pollList, s.refs 1, decide (ListenSt.Balanced ⟨true, true⟩ s (.exitClient 1)),
            s'.pollList)).toOption = some ([1], 1, true, []) := by decide
  revert hexact hlists
  cases run (ListenSt.step .bump ⟨true, true⟩) ListenSt.init _ with
  | error e => exact fun h => h.elim
  | ok s =>
      rintro ⟨hcount, -, hnext⟩ hlists
      simp only [Except.bind] at hlists
      cases hs : s.step .bump ⟨true, true⟩ (.exitClient 1) with
      | error e =>
          rw [hs] at hlists
          cases hlists
      | ok s' =>
          rw [hs] at hlists
          simp only [Except.map, Except.toOption, Option.some.injEq, Prod.mk.injEq,
            decide_eq_true_eq] at hlists
          obtain ⟨hpoll, hrefs, hbalanced, hgone⟩ := hlists
          have hfreed := hnext _ hbalanced
          rw [hs] at hfreed
          obtain ⟨hdone, hnobody⟩ := hfreed 1 (by simp [hpoll]) (by simp [hgone])
          exact ⟨s, s', rfl, hpoll, hcount 1 (by simp [hpoll]), hrefs, hs, hgone, hdone, hnobody⟩

/-- The handshake of the first client fails: its client is freed and stays
counted. -/
theorem sslAccept_leaks :
    ¬∀ (A : Allocator) (conf : ListenConf) (ops : List ListenOp),
      Answers (fun s => ∀ l ∈ s.pollList, (s.listener l).refCount = s.refs l) (fun _ => True)
        (run (ListenSt.step A conf) ListenSt.init ops) := by
  intro h
  exact absurd (h .bump ⟨true, true⟩ [.addListener 6697 [] (some []) false true (some 3),
    .addConnection 1 ⟨some [], true, false⟩]) (by decide)

end TrIrcd
