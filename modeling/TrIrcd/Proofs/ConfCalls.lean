import TrIrcd.Proofs.ConfRefs

/-!
# Confs as their callers use them

What `Spares` asks of a call follows from what the callers see to. `rehash` has
`flush_deleted_I_P` called behind `read_conf_files(0)`, so no client goes in
between (`FlushesFirst`). Nobody adds a class with a negative limit, and the confs
of operators, which links do not count, are attached to a server only while it
comes in, so none is when the configuration is read again (`Called`).

`Current` is the invariant. Every class on the list has a limit that is not
negative. A class that is not on it belongs to confs that were in use when it went:
they are illegal, so nobody is attached to them any more, and its links are their
clients. So the last of these leaves nothing behind that points to it
(`Current.spares`), and every conf and every class that is held lives
(`confs_kept`).
-/

namespace TrIrcd

open Function (update)
open TrIrcd.Lib

/-- A `detach_conf`. -/
def ConfOp.detaches : ConfOp → Bool
  | .detachConf _ _ => true
  | _ => false

/-- Whether confs wait for `flush_deleted_I_P` after the call. -/
def ConfOp.pending (pending : Bool) : ConfOp → Bool
  | .readConfFiles (some _) => true
  | .flushDeletedIP => false
  | _ => pending

/-- Between a `read_conf_files(0)` and the next `detach_conf` is a
`flush_deleted_I_P`. -/
def FlushesFirst : Bool → List ConfOp → Prop
  | _, [] => True
  | pending, op :: ops => (pending = true → op.detaches = false) ∧
      FlushesFirst (op.pending pending) ops

namespace ConfSt

variable {s s' : ConfSt} {a k : Nat} {pending : Bool}

/-- What a caller sees to: limits that are added are not negative, and links count
every conf that is attached when the configuration is read again. -/
def Called (s : ConfSt) : ConfOp → Prop
  | .readConfFiles (some _) => ∀ p ∈ s.confs, (s.conf p.2).counted = true
  | .addClass d => 0 ≤ d.maxli
  | _ => True

/-- Classes that are gone have only the confs of clients that were there before. -/
structure Current (pending : Bool) (s : ConfSt) : Prop where
  limits : ∀ k ∈ s.classes, 0 ≤ (s.cls k).maxConnections
  old : ∀ a, s.Live a → ∀ k, (s.conf a).connClass = some k → k ∈ s.classes ∨
    ((s.conf a).illegal = true ∧ (s.conf a).counted = true ∧ (s.conf a).clients ≠ 0)
  flushed : pending = false → ∀ a ∈ s.list, (s.conf a).illegal = false

/-- A client of a conf that links count is one of the links of its class. -/
theorem Sound.links_pos (h : Sound s) {p : Nat × Nat} (hp : p ∈ s.confs)
    (hc : (s.conf p.2).counted = true) (hk : (s.conf p.2).connClass = some k) :
    0 < (s.cls k).links := by
  rw [h.links k (h.class_live _ (h.attached p hp) k hk), Int.natCast_pos, List.countP_pos_iff]
  exact ⟨p, hp, by rw [linkedTo, hc, hk, decide_eq_true rfl, Bool.and_self]⟩

/-- Two clients of the confs of a class are two of its links. -/
theorem Sound.links_two (h : Sound s) {p q : Nat × Nat} (hp : p ∈ s.confs) (hq : q ∈ s.confs)
    (hne : p ≠ q) (hpl : s.linkedTo k p = true) (hql : s.linkedTo k q = true)
    (hk : s.LiveClass k) : 2 ≤ (s.cls k).links := by
  have hperm := List.perm_cons_erase hp
  have hrest : q ∈ s.confs.erase p := (List.mem_erase_of_ne (Ne.symm hne)).mpr hq
  have hpos : 0 < (s.confs.erase p).countP (s.linkedTo k) :=
    List.countP_pos_iff.mpr ⟨q, hrest, hql⟩
  rw [h.links k hk, hperm.countP_eq, List.countP_cons, if_pos hpl]
  omega

/-- What the callers see to is all that a call needs to spare what is held. -/
theorem Current.spares (hcur : Current pending s) (h : Sound s) {op : ConfOp}
    (hcalled : s.Called op) (hfirst : pending = true → op.detaches = false) : s.Spares op := by
  cases op with
  | attachConf c a => trivial
  | addClass d => trivial
  | flushDeletedIP => trivial
  | checkClass =>
      intro k hk hneg
      exact absurd hneg (Int.not_lt.mpr (hcur.limits k hk))
  | readConfFiles file =>
      cases file with
      | none => trivial
      | some file =>
          intro p hp k _ _ hpk hzero
          have hpos := h.links_pos hp (hcalled p hp) hpk
          omega
  | detachConf c a =>
      intro hin
      have hpending : pending = false := by
        cases pending with
        | false => rfl
        | true => cases hfirst rfl
      refine ⟨fun _ hi hl => ?_, fun k hk hmax hlinks => ?_⟩
      · rw [hcur.flushed hpending a hl] at hi
        cases hi
      · have hoff : k ∉ s.classes := fun hin' => by
          have hle := hcur.limits k hin'
          omega
        refine ⟨hoff, fun b hb hbk => by_contra fun hne => ?_⟩
        -- Both confs are in use, so that the class has two links.
        have hlive := h.class_live b hb k hbk
        obtain ⟨-, hac, -⟩ := (hcur.old a (h.attached _ hin) k hk).resolve_left hoff
        obtain ⟨-, hbc, hbu⟩ := (hcur.old b hb k hbk).resolve_left hoff
        obtain ⟨c', hc'⟩ := (h.attached_iff hb).mp hbu
        have htwo := @Sound.links_two s k h (c, a) (c', b) hin hc'
          (fun he => hne (Prod.ext_iff.mp he).2.symm)
          (by rw [linkedTo, hac, hk, decide_eq_true rfl, Bool.and_self])
          (by rw [linkedTo, hbc, hbk, decide_eq_true rfl, Bool.and_self]) hlive
        rw [hlinks, if_pos hac] at htwo
        omega

/-! ## What a call keeps -/

theorem setClass_cls (cl : ConnClass) (j : Nat) :
    (s.setClass k cl).cls j = if j = k then cl else s.cls j := Function.update_apply ..

/-- The limit of a class is not a matter of its links. -/
theorem setClass_links (k : Nat) (n : Int) (j : Nat) :
    ((s.setClass k { s.cls k with links := n }).cls j).maxConnections =
      (s.cls j).maxConnections := by
  rw [setClass_cls]
  split
  next hj => rw [hj]
  next => rfl

/-- The clients of a conf are counted anew, and confs go: an illegal one with its last
client. -/
theorem Current.recount (hcur : Current pending s) (n : Int) {freed' : List Nat}
    (hsub : ∀ b ∈ s.freed, b ∈ freed')
    (hgone : n = 0 → (s.conf a).illegal = true → a ∈ freed') (confs' : List (Nat × Nat)) :
    Current pending { s with
      conf := (s.setConf a { s.conf a with clients := n }).conf
      freed := freed'
      confs := confs' } := by
  have hconf : ∀ b, (s.setConf a { s.conf a with clients := n }).conf b =
      { s.conf b with clients := if b = a then n else (s.conf b).clients } := by
    intro b
    by_cases hb : b = a
    · rw [hb, setConf_self, if_pos rfl]
    · rw [setConf_of_ne hb, if_neg hb]
  refine ⟨hcur.limits, fun b hb k hk => ?_, fun hp b hb => ?_⟩
  · show _ ∨ (((setConf _ _ s).conf b).illegal = true ∧
      ((setConf _ _ s).conf b).counted = true ∧ ((setConf _ _ s).conf b).clients ≠ 0)
    change ((setConf _ _ s).conf b).connClass = some k at hk
    rw [hconf] at hk ⊢
    refine (hcur.old b ⟨hb.1, fun hf => hb.2 (hsub b hf)⟩ k hk).imp_right ?_
    rintro ⟨hi, hcnt, hcl⟩
    refine ⟨hi, hcnt, fun hzero => ?_⟩
    by_cases hba : b = a
    · subst hba
      exact hb.2 (hgone (by simpa only [if_true] using hzero) hi)
    · exact hcl (by simpa only [if_neg hba] using hzero)
  · show ((setConf _ _ s).conf b).illegal = false
    rw [hconf]
    exact hcur.flushed hp b hb

/-- A conf that a client is attached to is not illegal. -/
theorem attachConf_current (hcur : Current pending s) {c : Nat} {r : Int}
    (hat : attachConf c a s = .ok (r, s')) : Current pending s' := by
  rw [attachConf] at hat
  split at hat
  next =>
    cases hat
    exact hcur
  next =>
    split at hat
    next =>
      cases hat
      exact hcur
    next hlegal =>
      have hkept := @Current.recount s a pending hcur ((s.conf a).clients + 1) s.freed
        (fun _ => id) (fun _ hi => absurd hi hlegal) ((c, a) :: s.confs)
      change (if _ then _ else _) = _ at hat
      split at hat
      next =>
        split at hat
        next => cases hat
        next k hk =>
          cases hat
          refine ⟨fun j hj => ?_, hkept.old, hkept.flushed⟩
          exact (setClass_links k ((s.cls k).links + 1) j).symm ▸ hcur.limits j hj
      next =>
        cases hat
        exact hkept

/-- `unlinkClass` may take a conf its class, and changes no limit. -/
theorem unlinkClass_fields (a : Nat) (s : ConfSt) :
    (∀ b, ((unlinkClass a s).conf b).status = (s.conf b).status ∧
      ((unlinkClass a s).conf b).clients = (s.conf b).clients ∧
      ∀ k, ((unlinkClass a s).conf b).connClass = some k → (s.conf b).connClass = some k) ∧
      (∀ k, ((unlinkClass a s).cls k).maxConnections = (s.cls k).maxConnections) ∧
      (unlinkClass a s).classes = s.classes ∧ (unlinkClass a s).list = s.list ∧
      (unlinkClass a s).made = s.made ∧ (unlinkClass a s).freed = s.freed := by
  have hnone : ∀ (t : ConfSt) (b : Nat),
      ((t.setConf a { t.conf a with connClass := none }).conf b).status = (t.conf b).status ∧
      ((t.setConf a { t.conf a with connClass := none }).conf b).clients = (t.conf b).clients ∧
      ∀ k, ((t.setConf a { t.conf a with connClass := none }).conf b).connClass = some k →
        (t.conf b).connClass = some k := by
    intro t b
    by_cases hb : b = a
    · rw [hb, setConf_self]
      exact ⟨rfl, rfl, fun k hk => absurd hk (Option.some_ne_none k).symm⟩
    · rw [setConf_of_ne hb]
      exact ⟨rfl, rfl, fun _ => id⟩
  rw [unlinkClass]
  split
  next => exact ⟨fun b => ⟨rfl, rfl, fun _ => id⟩, fun _ => rfl, rfl, rfl, rfl, rfl⟩
  next k hk =>
    dsimp only
    split
    next =>
      split
      next => exact ⟨hnone s, setClass_links k _, rfl, rfl, rfl, rfl⟩
      next => exact ⟨fun b => ⟨rfl, rfl, fun _ => id⟩, setClass_links k _, rfl, rfl, rfl, rfl⟩
    next =>
      split
      next => exact ⟨hnone s, fun _ => rfl, rfl, rfl, rfl, rfl⟩
      next => exact ⟨fun b => ⟨rfl, rfl, fun _ => id⟩, fun _ => rfl, rfl, rfl, rfl, rfl⟩

theorem unlinkClass_current (hcur : Current pending s) (a : Nat) :
    Current pending (unlinkClass a s) := by
  obtain ⟨hconf, hmax, hclasses, hlist, hmade, hfreed⟩ := unlinkClass_fields a s
  refine ⟨fun k hk => ?_, fun b hb k hk => ?_, fun hp b hb => ?_⟩
  · rw [hmax]
    exact hcur.limits k (hclasses ▸ hk)
  · obtain ⟨hstatus, hclients, hclass⟩ := hconf b
    rw [hclasses, ConfItem.illegal, ConfItem.counted, hstatus, hclients]
    exact hcur.old b ⟨hmade ▸ hb.1, fun hf => hb.2 (hfreed ▸ hf)⟩ k (hclass k hk)
  · rw [ConfItem.illegal, (hconf b).1]
    exact hcur.flushed hp b (hlist ▸ hb)

/-- A conf that loses its last client goes if it is illegal, and else its class is on
the list. -/
theorem detachConf_current (hcur : Current pending s) (c a : Nat) :
    Current pending (detachConf c a s).2 := by
  rw [detachConf]
  split
  case isFalse => exact hcur
  case isTrue =>
    have ht := unlinkClass_current hcur a
    show Current pending (unlinkConf c a (unlinkClass a s))
    generalize unlinkClass a s = t at *
    rw [unlinkConf]
    simp only [setConf_self]
    split
    next =>
      exact ht.recount _ (fun b hb => List.mem_cons_of_mem _ hb)
        (fun _ _ => List.mem_cons_self ..) _
    next hgo =>
      exact @Current.recount t a pending ht ((t.conf a).clients - 1) t.freed (fun _ => id)
        (fun hz hi => absurd ⟨hz, hi⟩ hgo) (t.confs.erase (c, a))

/-- A class that is added has a limit that is not negative. -/
theorem addClass_current (hcur : Current pending s) (h : Sound s) {d : ClassDecl}
    (hd : 0 ≤ d.maxli) : Current pending (addClass s d) := by
  obtain ⟨-, hkept, -⟩ := addClass_sound h d
  have hlist : (addClass s d).list = s.list := by
    rw [addClass]
    dsimp only
    split
    · rfl
    · split <;> rfl
  refine ⟨?_, fun b hb k hk => ?_, fun hp b hb => ?_⟩
  · rw [addClass]
    dsimp only
    split
    next => exact hcur.limits
    next =>
      split
      next =>
        intro k hk
        show 0 ≤ (update s.cls s.classesMade _ k).maxConnections
        by_cases hnew : k = s.classesMade
        · rw [hnew, Function.update_self]
          exact hd
        · rw [Function.update_of_ne hnew]
          refine hcur.limits k ?_
          rw [← List.take_append_drop 1 s.classes, List.drop_one]
          exact (List.mem_cons.mp (List.perm_middle.mem_iff.mp hk)).resolve_left hnew
      next =>
        intro k hk
        show 0 ≤ (update s.cls _ _ k).maxConnections
        rw [Function.update_apply]
        split
        · exact hd
        · exact hcur.limits k hk
  · have hlive := (hkept.live b).mp hb
    rw [hkept.conf] at hk ⊢
    refine (hcur.old b hlive k hk).imp_left fun hin => ?_
    exact (hkept.classes k (h.classes_live k hin).1).mpr hin
  · rw [hkept.conf]
    exact hcur.flushed hp b (hlist ▸ hb)

/-- `check_class` takes no class off a list whose limits are not negative, and leaves
such a list of any other. -/
theorem checkClass_fields (h : Sound s) {F : FreedRead} (hcheck : checkClass F s = .ok s') :
    (∃ freed classes, s' = { s with classesFreed := freed, classes := classes }) ∧
      (∀ k ∈ s'.classes, k ∈ s.classes ∧ 0 ≤ (s.cls k).maxConnections) ∧
      ∀ k ∈ s.classes, 0 ≤ (s.cls k).maxConnections → k ∈ s'.classes := by
  rw [h.checkClass_eq] at hcheck
  obtain ⟨r, hloop, rfl⟩ := map_ok_iff.mp hcheck
  obtain ⟨freed, hs, hin, hout⟩ := checkLoop_fields F s.classes.tail hloop
  refine ⟨⟨freed, 0 :: r.1, by rw [hs]⟩, fun k hk => ?_, fun k hk hle => ?_⟩
  · rcases List.mem_cons.mp hk with rfl | hk
    · exact ⟨h.head_mem, h.first.2.2⟩
    · exact ⟨List.mem_of_mem_tail (hin k hk).1, (hin k hk).2⟩
  · rw [h.tail_eq] at hk
    rcases List.mem_cons.mp hk with rfl | hk
    · exact List.mem_cons_self ..
    · exact List.mem_cons_of_mem _ (hout k hk hle)

theorem checkClass_current (hcur : Current pending s) (h : Sound s) {F : FreedRead}
    (hcheck : checkClass F s = .ok s') : Current pending s' := by
  obtain ⟨⟨freed, classes, rfl⟩, hin, hout⟩ := checkClass_fields h hcheck
  exact ⟨fun k hk => (hin k hk).2,
    fun a ha k hk => (hcur.old a ha k hk).imp_left fun hmem => hout k hmem (hcur.limits k hmem),
    hcur.flushed⟩

/-- What `flush_deleted_I_P` leaves on the list is not illegal. -/
theorem flushLoop_fields (rest : List Nat) : ∀ s : ConfSt,
    (∃ freed, (flushLoop rest s).2 = { s with freed := freed } ∧ ∀ a ∈ s.freed, a ∈ freed) ∧
      ∀ a ∈ (flushLoop rest s).1, (s.conf a).illegal = false := by
  induction rest with
  | nil => exact fun s => ⟨⟨_, rfl, fun _ => id⟩, fun a ha => absurd ha List.not_mem_nil⟩
  | cons a rest ih =>
      intro s
      rw [flushLoop]
      split
      next =>
        split
        next =>
          obtain ⟨⟨freed, hs, hsub⟩, hlegal⟩ := ih (freeConf a s)
          exact ⟨⟨freed, hs, fun b hb => hsub b (List.mem_cons_of_mem _ hb)⟩, hlegal⟩
        next => exact ih s
      next hi =>
        obtain ⟨hfields, hlegal⟩ := ih s
        refine ⟨hfields, fun b hb => ?_⟩
        rcases List.mem_cons.mp hb with rfl | hb
        · exact Bool.eq_false_iff.mpr hi
        · exact hlegal b hb

theorem flushDeletedIP_current (hcur : Current pending s) :
    Current false (flushDeletedIP s) := by
  obtain ⟨⟨freed, hs, hsub⟩, hlegal⟩ := flushLoop_fields s.list s
  rw [flushDeletedIP]
  simp only [hs]
  exact ⟨hcur.limits, fun a ha k hk => hcur.old a ⟨ha.1, fun hf => ha.2 (hsub a hf)⟩ k hk,
    fun _ => hlegal⟩

/-! ## Reading the configuration again -/

/-- Confs stay counted and illegal, and those that stay on the list become so. -/
theorem clearLoop_marks (rest : List Nat) : ∀ s : ConfSt,
    (∀ b, ((clearLoop rest s).2.conf b).counted = (s.conf b).counted ∧
      ((s.conf b).illegal = true → ((clearLoop rest s).2.conf b).illegal = true)) ∧
      (∀ b ∈ s.freed, b ∈ (clearLoop rest s).2.freed) ∧ (clearLoop rest s).2.made = s.made ∧
      ∀ b ∈ (clearLoop rest s).1, ((clearLoop rest s).2.conf b).illegal = true := by
  induction rest with
  | nil =>
      exact fun s => ⟨fun _ => ⟨rfl, id⟩, fun _ => id, rfl, fun b hb => absurd hb List.not_mem_nil⟩
  | cons a rest ih =>
      intro s
      rw [clearLoop]
      split
      next =>
        obtain ⟨hconf, hfreed, hmade, hstay⟩ := ih (markIllegal a s)
        have hmarked : ∀ b, ((clearLoop rest (markIllegal a s)).2.conf b).counted =
            (s.conf b).counted ∧ ((s.conf b).illegal = true →
              ((clearLoop rest (markIllegal a s)).2.conf b).illegal = true) := fun b =>
          ⟨(hconf b).1.trans (markIllegal_conf a b).2.2.1,
            fun hi => (hconf b).2 ((markIllegal_conf a b).2.2.2.1 hi)⟩
        dsimp only
        split
        next => exact ⟨hmarked, hfreed, hmade, hstay⟩
        next =>
          refine ⟨hmarked, hfreed, hmade, fun b hb => ?_⟩
          rcases List.mem_cons.mp hb with rfl | hb
          · exact (hconf b).2 (markIllegal_conf b b).2.2.2.2
          · exact hstay b hb
      next =>
        obtain ⟨hconf, hfreed, hmade, hstay⟩ := ih (freeConf a s)
        exact ⟨hconf, fun b hb => hfreed b (List.mem_cons_of_mem _ hb), hmade, hstay⟩

/-- What an emptied configuration holds is illegal and in use, and counted if all that
is attached is. -/
theorem clearConfs_old (h : Sound s) (hcounted : ∀ p ∈ s.confs, (s.conf p.2).counted = true)
    {a : Nat} (ha : (clearConfs s).Live a) :
    ((clearConfs s).conf a).illegal = true ∧ ((clearConfs s).conf a).counted = true ∧
      ((clearConfs s).conf a).clients ≠ 0 := by
  obtain ⟨hsound, hsame, hused⟩ := clearConfs_sound h
  obtain ⟨hconf, hfreed, hmade, hstay⟩ := clearLoop_marks s.list s
  have hclients : ((clearConfs s).conf a).clients ≠ 0 := by
    rw [hsame.clients]
    exact hused a ha
  obtain ⟨c, hc⟩ := (hsound.attached_iff ha).mp hclients
  rw [hsame.confs] at hc
  refine ⟨?_, (hconf a).1.trans (hcounted _ hc), hclients⟩
  rcases hsound.unlisted a ha with hl | ⟨hi, -⟩
  · exact hstay a hl
  · exact hi

/-- A new conf has a class of the list. -/
theorem confAddConf_current (hcur : Current true s) (h : Sound s) (d : ConfDecl) :
    Current true (confAddConf s d) := by
  refine ⟨hcur.limits, fun a ha k hk => ?_, fun hp => absurd hp (by decide)⟩
  by_cases hnew : a = s.made
  · have hself : (confAddConf s d).conf s.made =
        ⟨d.status, 0, some (confAddClassToConf d.number s)⟩ := Function.update_self ..
    rw [hnew, hself] at hk
    cases hk
    exact .inl (h.confAddClassToConf_mem d.number)
  · have hsame : (confAddConf s d).conf a = s.conf a := Function.update_of_ne hnew ..
    rw [hsame] at hk ⊢
    exact hcur.old a ⟨Nat.lt_of_le_of_ne (Nat.le_of_lt_succ ha.1) hnew, ha.2⟩ k hk

theorem confAddConfs_current (ds : List ConfDecl) :
    ∀ {s : ConfSt}, Current true s → Sound s → Current true (ds.foldl confAddConf s) := by
  induction ds with
  | nil => exact fun hcur _ => hcur
  | cons d ds ih => exact fun hcur h => ih (confAddConf_current hcur h d) (confAddConf_sound h d)

theorem readConfFiles_current (hcur : Current pending s) (h : Sound s) {F : FreedRead}
    {file : Option ConfFile} (hcalled : s.Called (.readConfFiles file))
    (hread : readConfFiles F file s = .ok s') :
    Current ((ConfOp.readConfFiles file).pending pending) s' := by
  cases file with
  | none =>
      cases hread
      exact hcur
  | some file =>
      obtain ⟨s₄, hcheck, rfl⟩ := map_ok_iff.mp hread
      obtain ⟨h₁, -, -⟩ := clearConfs_sound h
      obtain ⟨h₃, hkept, -⟩ := addClasses_sound file.classes (markClasses_sound h₁)
      have h₄ := checkClasses_sound h (hcur.spares h hcalled fun _ => rfl) hcheck
      have hcur₄ : Current true s₄ := by
        obtain ⟨⟨freed, classes, rfl⟩, hin, -⟩ := checkClass_fields h₃ hcheck
        refine ⟨fun k hk => (hin k hk).2, fun a ha k hk => .inr ?_, nofun⟩
        rw [hkept.conf]
        exact clearConfs_old h hcalled ((hkept.live a).mp ha)
      exact confAddConfs_current file.confs hcur₄ h₄

/-! ## Runs -/

theorem step_current {F : FreedRead} (op : ConfOp) (hcur : Current pending s) (h : Sound s)
    (hcalled : s.Called op) (hstep : step F s op = .ok s') :
    Current (op.pending pending) s' := by
  rw [step.eq_def] at hstep
  split at hstep
  case isFalse => cases hstep
  case isTrue =>
    cases op with
    | attachConf c a =>
        obtain ⟨⟨r, s₁⟩, hat, rfl⟩ := map_ok_iff.mp hstep
        exact attachConf_current hcur hat
    | detachConf c a =>
        cases hstep
        exact detachConf_current hcur c a
    | readConfFiles file => exact readConfFiles_current hcur h hcalled hstep
    | addClass d =>
        cases hstep
        exact addClass_current hcur h hcalled
    | checkClass => exact checkClass_current hcur h hstep
    | flushDeletedIP =>
        cases hstep
        exact flushDeletedIP_current hcur

/-- A run keeps both: what is current spares, and what is spared stays sound. -/
theorem run_sound {F : FreedRead} (ops : List ConfOp) :
    ∀ {pending : Bool} {s s' : ConfSt}, Current pending s → Sound s →
      FlushesFirst pending ops → Meets (step F) Called s ops → run (step F) s ops = .ok s' →
      Sound s' := by
  induction ops with
  | nil =>
      intro pending s s' _ h _ _ hrun
      cases hrun
      exact h
  | cons op ops ih =>
      intro pending s s' hcur h hfirst hmeets hrun
      obtain ⟨m, hm, hrest⟩ := run_cons_ok.mp hrun
      exact ih (step_current op hcur h hmeets.1 hm)
        (step_sound op h (hcur.spares h hmeets.1 hfirst.1) hm) hfirst.2 (hmeets.2 m hm) hrest

end ConfSt

open ConfSt

section Samples

instance (s : ConfSt) (P : Nat → Prop) [DecidablePred P] : Decidable (∀ a, s.Live a → P a) :=
  decidable_of_iff (∀ a < s.made, a ∉ s.freed → P a)
    ⟨fun h a ha => h a ha.1 ha.2, fun h a hlt hno => h a ⟨hlt, hno⟩⟩

instance (s : ConfSt) : ∀ op, Decidable (s.Called op)
  | .attachConf _ _ | .detachConf _ _ | .readConfFiles none | .checkClass | .flushDeletedIP =>
      .isTrue trivial
  | .readConfFiles (some _) => inferInstanceAs (Decidable (∀ p ∈ _, _))
  | .addClass _ => inferInstanceAs (Decidable (_ ≤ _))

end Samples

end TrIrcd
