import Mathlib.Data.List.Nodup
import TrIrcd.Lib.Run
import TrIrcd.Src.Auth

/-!
# Every client is released once

A request that is not freed owns what refers to it: the query of its client and
the descriptor, which wait for nobody else (`Own`). So a callback finds its
request there, and what it does to one request leaves the others what they own
(`Core.change`). A request on the list waits for the resolver or for the ident
query (`Sound`): who ends the one looks for the other, and if that is over too,
frees the request (`Core.drop`). No step touches a freed request, and a client
of which both are over is released (`auth_done`).
-/

namespace TrIrcd

open Function (update)
open TrIrcd.Lib

/-- The client an event is about. -/
def AuthEvent.who : AuthEvent → Option Nat
  | .told c _ | .answered c | .identOver c | .timedOut c | .released c | .exited c => some c
  | .freed _ => none

/-- The request a descriptor waits for. -/
def FdHandler.waits : FdHandler → Option Nat
  | .idle => none
  | .connect a | .read a => some a

namespace AuthSt

/-- The request has been made and not been freed. -/
def Alive (s : AuthSt) (a : Nat) : Prop := a < s.made ∧ .freed a ∉ s.log

/-- What a request that is alive can rely on. -/
structure Own (s : AuthSt) (a : Nat) : Prop where
  held : .released (s.request a).client ∉ s.log ∧ .exited (s.request a).client ∉ s.log
  dns : .answered (s.request a).client ∈ s.log → (s.request a).dnsPending = false
  ident : .identOver (s.request a).client ∈ s.log → (s.request a).doingAuth = false
  query : (s.request a).dnsPending = true → s.dnsQuery (s.request a).client ≠ none
  asked : ∀ b, s.adns (s.request a).client = some b → b = a ∧ (s.request a).dnsPending = true ∧
    s.dnsQuery (s.request a).client = some true
  doing : (s.request a).doingAuth = (s.request a).fd.isSome
  open_fd : ∀ fd, (s.request a).fd = some fd →
    ∃ h, s.fdTable fd = some h ∧ (h.waits = none ∨ h.waits = some a)

/-- What holds of the log, the resolver and the descriptors. -/
structure Core (s : AuthSt) : Prop where
  own : ∀ a, s.Alive a → s.Own a
  freed_made : ∀ a, .freed a ∈ s.log → a < s.made
  freed_once : ∀ a, s.log.count (.freed a) ≤ 1
  released_once : ∀ c, s.log.count (.released c) ≤ 1
  known : ∀ e ∈ s.log, ∀ c, e.who = some c → ∃ a < s.made, (s.request a).client = c
  inj : ∀ a < s.made, ∀ b < s.made, (s.request a).client = (s.request b).client → a = b
  gone : ∀ a < s.made, .freed a ∈ s.log →
    .released (s.request a).client ∈ s.log ∨ .exited (s.request a).client ∈ s.log
  timed : ∀ c, .timedOut c ∈ s.log → .released c ∈ s.log
  asked : ∀ c a, s.adns c = some a → s.Alive a ∧ (s.request a).client = c
  canceled : ∀ c, s.dnsQuery c = some true → .exited c ∉ s.log → s.adns c ≠ none
  handler : ∀ fd h a, s.fdTable fd = some h → h.waits = some a →
    s.Alive a ∧ (s.request a).fd = some fd
  fd_inj : ∀ a b, s.Alive a → s.Alive b → ∀ fd, (s.request a).fd = some fd →
    (s.request b).fd = some fd → a = b

/-- The list holds the requests that are alive. -/
structure Linked (s : AuthSt) : Prop where
  nodup : s.pollList.Nodup
  mem : ∀ a, a ∈ s.pollList ↔ s.Alive a

/-- The request waits for the resolver, or for the ident query. -/
def Busy (s : AuthSt) (a : Nat) : Prop :=
  (s.request a).dnsPending = true ∨ (s.request a).doingAuth = true

structure Sound (s : AuthSt) : Prop where
  core : Core s
  linked : Linked s
  busy : ∀ a, s.Alive a → s.Busy a

/-- What befalls a client while its request is alive. -/
def Mild (c : Nat) (e : AuthEvent) : Prop :=
  e = .answered c ∨ e = .identOver c ∨ ∃ r, e = .told c r

variable {s s' : AuthSt} {a : Nat} {es : List AuthEvent}

theorem Mild.not_life {c : Nat} {e : AuthEvent} (h : Mild c e) :
    (∀ b, e ≠ .freed b) ∧ (∀ d, e ≠ .released d) ∧ (∀ d, e ≠ .exited d) ∧
      (∀ d, e ≠ .timedOut d) ∧ e.who = some c := by
  rcases h with rfl | rfl | ⟨r, rfl⟩
  all_goals exact ⟨fun _ => nofun, fun _ => nofun, fun _ => nofun, fun _ => nofun, rfl⟩

theorem not_mild_freed (c b : Nat) : ¬Mild c (.freed b) := fun h => h.not_life.1 b rfl

theorem not_mild_released (c d : Nat) : ¬Mild c (.released d) := fun h => h.not_life.2.1 d rfl

theorem not_mild_exited (c d : Nat) : ¬Mild c (.exited d) := fun h => h.not_life.2.2.1 d rfl

theorem not_mild_timedOut (c d : Nat) : ¬Mild c (.timedOut d) := fun h =>
  h.not_life.2.2.2.1 d rfl

/-- A request owns what it owned where nothing is noted about its client, and neither the
query nor the descriptor changes. -/
theorem Own.frame {b : Nat} (h : s.Own b) (hreq : s'.request b = s.request b)
    (hlog : ∀ e : AuthEvent, e.who = some (s.request b).client → e ∈ s'.log → e ∈ s.log)
    (hdns : s'.adns (s.request b).client = s.adns (s.request b).client ∧
      s'.dnsQuery (s.request b).client = s.dnsQuery (s.request b).client)
    (hfd : ∀ fd, (s.request b).fd = some fd → s'.fdTable fd = s.fdTable fd) : s'.Own b := by
  constructor <;> rw [hreq]
  · exact ⟨fun hm => h.held.1 (hlog _ rfl hm), fun hm => h.held.2 (hlog _ rfl hm)⟩
  · exact fun hm => h.dns (hlog _ rfl hm)
  · exact fun hm => h.ident (hlog _ rfl hm)
  · rw [hdns.2]
    exact h.query
  · rw [hdns.1, hdns.2]
    exact h.asked
  · exact h.doing
  · intro fd hbfd
    rw [hfd fd hbfd]
    exact h.open_fd fd hbfd

/-- The client of a request that is alive is that of no other request. -/
theorem Core.client_ne (h : Core s) {b : Nat} (ha : s.Alive a) (hb : s.Alive b) (hne : b ≠ a) :
    (s.request b).client ≠ (s.request a).client := fun he => hne (h.inj b hb.1 a ha.1 he)

/-! ## A request changes -/

/-- One request changes, with the query of its client and its descriptor. -/
structure Changes (a : Nat) (es : List AuthEvent) (s s' : AuthSt) : Prop where
  made : s'.made = s.made
  client : (s'.request a).client = (s.request a).client
  other : ∀ b, b ≠ a → s'.request b = s.request b
  log : s'.log = es ++ s.log
  mild : ∀ e ∈ es, Mild (s.request a).client e
  dns : ∀ c, c ≠ (s.request a).client → s'.adns c = s.adns c ∧ s'.dnsQuery c = s.dnsQuery c
  fd : ∀ fd, some fd ≠ (s.request a).fd → some fd ≠ (s'.request a).fd →
    s'.fdTable fd = s.fdTable fd
  new_fd : ∀ fd, (s'.request a).fd = some fd → (s.request a).fd = some fd ∨ s.fdTable fd = none
  old_fd : ∀ fd, (s.request a).fd = some fd → (s'.request a).fd ≠ some fd → s'.fdTable fd = none
  canceled : s'.dnsQuery (s.request a).client = some true → s'.adns (s.request a).client ≠ none
  own : s'.Own a

namespace Changes

variable (hc : Changes a es s s')

include hc in
theorem mem_log {e : AuthEvent} (he : ¬Mild (s.request a).client e) : e ∈ s'.log ↔ e ∈ s.log := by
  rw [hc.log, List.mem_append]
  exact or_iff_right fun hm => he (hc.mild e hm)

include hc in
theorem count_log {e : AuthEvent} (he : ¬Mild (s.request a).client e) :
    s'.log.count e = s.log.count e := by
  rw [hc.log, List.count_append, List.count_eq_zero.mpr fun hm => he (hc.mild e hm), Nat.zero_add]

include hc in
theorem alive (b : Nat) : s'.Alive b ↔ s.Alive b := by
  rw [Alive, Alive, hc.made, hc.mem_log (not_mild_freed _ b)]

include hc in
theorem clients (b : Nat) : (s'.request b).client = (s.request b).client := by
  by_cases hb : b = a
  · rw [hb, hc.client]
  · rw [hc.other b hb]

include hc in
/-- No other request has the old descriptor, nor the new one. -/
theorem apart (h : Core s) (ha : s.Alive a) {b : Nat} (hb : s.Alive b) (hba : b ≠ a) {fd : Nat}
    (hbfd : (s.request b).fd = some fd) :
    (s.request a).fd ≠ some fd ∧ (s'.request a).fd ≠ some fd := by
  have hold : (s.request a).fd ≠ some fd := fun he => hba (h.fd_inj b a hb ha fd hbfd he)
  refine ⟨hold, fun he => ?_⟩
  obtain ⟨hd, hopen, _⟩ := (h.own b hb).open_fd fd hbfd
  rcases hc.new_fd fd he with hf | hf
  · exact hold hf
  · rw [hf] at hopen
    cases hopen

include hc in
theorem own_other (h : Core s) (ha : s.Alive a) {b : Nat} (hb : s.Alive b) (hba : b ≠ a) :
    s'.Own b := by
  have hne := h.client_ne ha hb hba
  refine (h.own b hb).frame (hc.other b hba) (fun e hw => ?_) (hc.dns _ hne) fun fd hbfd => ?_
  · refine (hc.mem_log fun hm => hne ?_).mp
    have hwho := hm.not_life.2.2.2.2
    rw [hw] at hwho
    exact Option.some.inj hwho
  · obtain ⟨hold, hnew⟩ := hc.apart h ha hb hba hbfd
    exact hc.fd fd hold.symm hnew.symm

include hc in
theorem known (h : Core s) (ha : s.Alive a) {e : AuthEvent} (he : e ∈ s'.log) {c : Nat}
    (hw : e.who = some c) : ∃ b < s'.made, (s'.request b).client = c := by
  rw [hc.made]
  rw [hc.log] at he
  rcases List.mem_append.mp he with he | he
  · have hwho := (hc.mild e he).not_life.2.2.2.2
    rw [hw] at hwho
    exact ⟨a, ha.1, (hc.clients a).trans (Option.some.inj hwho).symm⟩
  · obtain ⟨b, hb, hbc⟩ := h.known e he c hw
    exact ⟨b, hb, (hc.clients b).trans hbc⟩

include hc in
theorem asked (h : Core s) (ha : s.Alive a) {c b : Nat} (hcb : s'.adns c = some b) :
    s'.Alive b ∧ (s'.request b).client = c := by
  by_cases hca : c = (s.request a).client
  · rw [hca, ← hc.client] at hcb
    rw [(hc.own.asked b hcb).1]
    exact ⟨(hc.alive a).mpr ha, hc.client.trans hca.symm⟩
  · rw [(hc.dns c hca).1] at hcb
    obtain ⟨hb, hbc⟩ := h.asked c b hcb
    exact ⟨(hc.alive b).mpr hb, (hc.clients b).trans hbc⟩

include hc in
/-- Who waits for a descriptor has it. -/
theorem handler (h : Core s) (ha : s.Alive a) {fd b : Nat} {hd : FdHandler}
    (hget : s'.fdTable fd = some hd) (hw : hd.waits = some b) :
    s'.Alive b ∧ (s'.request b).fd = some fd := by
  by_cases hnew : (s'.request a).fd = some fd
  · obtain ⟨h', hopen, hwaits⟩ := hc.own.open_fd fd hnew
    rw [hget] at hopen
    cases hopen
    rw [hw] at hwaits
    rcases hwaits with hwaits | hwaits
    · cases hwaits
    · cases hwaits
      exact ⟨(hc.alive a).mpr ha, hnew⟩
  · by_cases hold : (s.request a).fd = some fd
    · rw [hc.old_fd fd hold hnew] at hget
      cases hget
    · rw [hc.fd fd (Ne.symm hold) (Ne.symm hnew)] at hget
      obtain ⟨hb, hbfd⟩ := h.handler fd hd b hget hw
      have hba : b ≠ a := fun he => hold (by rw [← he]; exact hbfd)
      rw [hc.other b hba]
      exact ⟨(hc.alive b).mpr hb, hbfd⟩

include hc in
theorem fd_inj (h : Core s) (ha : s.Alive a) {x y fd : Nat} (hx : s'.Alive x) (hy : s'.Alive y)
    (hxf : (s'.request x).fd = some fd) (hyf : (s'.request y).fd = some fd) : x = y := by
  rw [hc.alive] at hx hy
  by_cases hxa : x = a
  · by_cases hya : y = a
    · rw [hxa, hya]
    · rw [hc.other y hya] at hyf
      rw [hxa] at hxf
      exact absurd hxf (hc.apart h ha hy hya hyf).2
  · rw [hc.other x hxa] at hxf
    by_cases hya : y = a
    · rw [hya] at hyf
      exact absurd hyf (hc.apart h ha hx hxa hxf).2
    · rw [hc.other y hya] at hyf
      exact h.fd_inj x y hx hy fd hxf hyf

end Changes

/-- A change of one request leaves the others what they own. -/
theorem Core.change (h : Core s) (ha : s.Alive a) (hc : Changes a es s s') : Core s' where
  own b hb := by
    by_cases hba : b = a
    · rw [hba]
      exact hc.own
    · exact hc.own_other h ha ((hc.alive b).mp hb) hba
  freed_made b hb := by
    rw [hc.made]
    exact h.freed_made b ((hc.mem_log (not_mild_freed _ b)).mp hb)
  freed_once b := by
    rw [hc.count_log (not_mild_freed _ b)]
    exact h.freed_once b
  released_once c := by
    rw [hc.count_log (not_mild_released _ c)]
    exact h.released_once c
  known e he c hw := hc.known h ha he hw
  inj x hx y hy hxy := by
    rw [hc.made] at hx hy
    rw [hc.clients, hc.clients] at hxy
    exact h.inj x hx y hy hxy
  gone b hb hf := by
    rw [hc.made] at hb
    rw [hc.clients, hc.mem_log (not_mild_released _ _), hc.mem_log (not_mild_exited _ _)]
    exact h.gone b hb ((hc.mem_log (not_mild_freed _ b)).mp hf)
  timed c ht := (hc.mem_log (not_mild_released _ c)).mpr
    (h.timed c ((hc.mem_log (not_mild_timedOut _ c)).mp ht))
  asked c b hcb := hc.asked h ha hcb
  canceled c hq hx := by
    by_cases hca : c = (s.request a).client
    · rw [hca] at hq ⊢
      exact hc.canceled hq
    · rw [(hc.dns c hca).2] at hq
      rw [(hc.dns c hca).1]
      exact h.canceled c hq fun he => hx ((hc.mem_log (not_mild_exited _ c)).mpr he)
  handler fd hd b hget hw := hc.handler h ha hget hw
  fd_inj x y hx hy fd hxf hyf := hc.fd_inj h ha hx hy hxf hyf

/-! ## A request goes -/

/-- A request goes, with its query and its descriptor, and its client is
released or exits. -/
structure Drops (a : Nat) (es : List AuthEvent) (s s' : AuthSt) : Prop where
  request : s'.request = s.request
  made : s'.made = s.made
  log : s'.log = es ++ s.log
  events : ∀ e ∈ es, e = .freed a ∨ e.who = some (s.request a).client
  freed : es.count (.freed a) = 1
  released : es.count (.released (s.request a).client) ≤ 1
  gone : .released (s.request a).client ∈ es ∨ .exited (s.request a).client ∈ es
  timed : .timedOut (s.request a).client ∈ es → .released (s.request a).client ∈ es
  dns : ∀ c, c ≠ (s.request a).client → s'.adns c = s.adns c ∧ s'.dnsQuery c = s.dnsQuery c
  adns : s'.adns (s.request a).client = none
  query : s'.dnsQuery (s.request a).client = some true → .exited (s.request a).client ∈ es
  fd : ∀ fd, (s.request a).fd ≠ some fd → s'.fdTable fd = s.fdTable fd
  closed : ∀ fd, (s.request a).fd = some fd → s'.fdTable fd = none

namespace Drops

variable (hd : Drops a es s s')

include hd in
theorem mem_log (e : AuthEvent) : e ∈ s'.log ↔ e ∈ es ∨ e ∈ s.log := by
  rw [hd.log, List.mem_append]

include hd in
theorem count_log {e : AuthEvent} (he : e ∉ es) : s'.log.count e = s.log.count e := by
  rw [hd.log, List.count_append, List.count_eq_zero.mpr he, Nat.zero_add]

include hd in
theorem freed_iff (b : Nat) : .freed b ∈ es ↔ b = a := by
  constructor
  · intro hb
    rcases hd.events _ hb with he | he
    · cases he
      rfl
    · cases he
  · rintro rfl
    exact List.count_pos_iff.mp (by rw [hd.freed]; exact Nat.one_pos)

include hd in
/-- What happens is about the client of the request, and of no other. -/
theorem not_foreign {e : AuthEvent} {c : Nat} (hw : e.who = some c)
    (hne : c ≠ (s.request a).client) : e ∉ es := by
  intro he
  rcases hd.events e he with hf | hf
  · rw [hf] at hw
    cases hw
  · rw [hw] at hf
    exact hne (Option.some.inj hf)

include hd in
theorem foreign {e : AuthEvent} {c : Nat} (hw : e.who = some c) (hne : c ≠ (s.request a).client) :
    e ∈ s'.log ↔ e ∈ s.log :=
  (hd.mem_log e).trans (or_iff_right (hd.not_foreign hw hne))

include hd in
theorem alive (b : Nat) : s'.Alive b ↔ s.Alive b ∧ b ≠ a := by
  rw [Alive, Alive, hd.made, hd.mem_log, hd.freed_iff, not_or, and_comm (a := ¬b = a), and_assoc]

include hd in
theorem own (h : Core s) (ha : s.Alive a) {b : Nat} (hb : s'.Alive b) : s'.Own b := by
  obtain ⟨hb, hba⟩ := (hd.alive b).mp hb
  have hne := h.client_ne ha hb hba
  refine (h.own b hb).frame (congrFun hd.request b) (fun e hw => (hd.foreign hw hne).mp)
    (hd.dns _ hne) fun fd hbfd => hd.fd fd fun he => ?_
  exact hba (h.fd_inj b a hb ha fd hbfd he)

include hd in
theorem freed_once (h : Core s) (ha : s.Alive a) (b : Nat) : s'.log.count (.freed b) ≤ 1 := by
  by_cases hba : b = a
  · have hzero := List.count_eq_zero.mpr ha.2
    have hone := hd.freed
    rw [hba, hd.log, List.count_append]
    omega
  · rw [hd.count_log fun he => hba ((hd.freed_iff b).mp he)]
    exact h.freed_once b

include hd in
theorem released_once (h : Core s) (ha : s.Alive a) (c : Nat) :
    s'.log.count (.released c) ≤ 1 := by
  by_cases hca : c = (s.request a).client
  · have hzero := List.count_eq_zero.mpr (h.own a ha).held.1
    have hone := hd.released
    rw [hca, hd.log, List.count_append]
    omega
  · rw [hd.count_log (hd.not_foreign rfl hca)]
    exact h.released_once c

include hd in
theorem known (h : Core s) (ha : s.Alive a) {e : AuthEvent} (he : e ∈ s'.log) {c : Nat}
    (hw : e.who = some c) : ∃ b < s'.made, (s'.request b).client = c := by
  rw [hd.made, hd.request]
  rcases (hd.mem_log e).mp he with he | he
  · rcases hd.events e he with hf | hf
    · rw [hf] at hw
      cases hw
    · rw [hw] at hf
      exact ⟨a, ha.1, (Option.some.inj hf).symm⟩
  · exact h.known e he c hw

include hd in
theorem timed_log (h : Core s) {c : Nat} (hc : .timedOut c ∈ s'.log) : .released c ∈ s'.log := by
  rw [hd.mem_log]
  rcases (hd.mem_log _).mp hc with hc | hc
  · rcases hd.events _ hc with hf | hf
    · cases hf
    · rw [show c = (s.request a).client from Option.some.inj hf] at hc ⊢
      exact .inl (hd.timed hc)
  · exact .inr (h.timed c hc)

include hd in
theorem asked (h : Core s) {c b : Nat} (hcb : s'.adns c = some b) :
    s'.Alive b ∧ (s'.request b).client = c := by
  have hca : c ≠ (s.request a).client := by
    intro he
    rw [he, hd.adns] at hcb
    cases hcb
  rw [(hd.dns c hca).1] at hcb
  obtain ⟨hb, hbc⟩ := h.asked c b hcb
  rw [hd.request]
  refine ⟨(hd.alive b).mpr ⟨hb, fun he => hca ?_⟩, hbc⟩
  rw [← hbc, he]

include hd in
theorem canceled (h : Core s) {c : Nat} (hc : s'.dnsQuery c = some true)
    (hx : .exited c ∉ s'.log) : s'.adns c ≠ none := by
  by_cases hca : c = (s.request a).client
  · rw [hca] at hc hx
    exact absurd ((hd.mem_log _).mpr (.inl (hd.query hc))) hx
  · rw [(hd.dns c hca).2] at hc
    rw [(hd.dns c hca).1]
    exact h.canceled c hc fun he => hx ((hd.mem_log _).mpr (.inr he))

include hd in
theorem handler (h : Core s) {fd b : Nat} {hdl : FdHandler} (hget : s'.fdTable fd = some hdl)
    (hw : hdl.waits = some b) : s'.Alive b ∧ (s'.request b).fd = some fd := by
  by_cases hafd : (s.request a).fd = some fd
  · rw [hd.closed fd hafd] at hget
    cases hget
  · rw [hd.fd fd hafd] at hget
    obtain ⟨hb, hbfd⟩ := h.handler fd hdl b hget hw
    rw [hd.request]
    exact ⟨(hd.alive b).mpr ⟨hb, fun he => hafd (by rw [← he]; exact hbfd)⟩, hbfd⟩

end Drops

/-- What goes with a request is missed by no other. -/
theorem Core.drop (h : Core s) (ha : s.Alive a) (hd : Drops a es s s') : Core s' where
  own b hb := hd.own h ha hb
  freed_made b hb := by
    rw [hd.made]
    rcases (hd.mem_log _).mp hb with hb | hb
    · rw [(hd.freed_iff b).mp hb]
      exact ha.1
    · exact h.freed_made b hb
  freed_once b := hd.freed_once h ha b
  released_once c := hd.released_once h ha c
  known e he c hw := hd.known h ha he hw
  inj x hx y hy hxy := by
    rw [hd.made] at hx hy
    rw [hd.request] at hxy
    exact h.inj x hx y hy hxy
  gone b hb hf := by
    rw [hd.made] at hb
    rw [hd.request, hd.mem_log, hd.mem_log]
    rcases (hd.mem_log _).mp hf with hf | hf
    · rw [(hd.freed_iff b).mp hf]
      exact hd.gone.imp .inl .inl
    · exact (h.gone b hb hf).imp .inr .inr
  timed c hc := hd.timed_log h hc
  asked c b hcb := hd.asked h hcb
  canceled c hc hx := hd.canceled h hc hx
  handler fd hdl b hget hw := hd.handler h hget hw
  fd_inj x y hx hy fd hxf hyf := by
    rw [hd.request] at hxf hyf
    exact h.fd_inj x y ((hd.alive x).mp hx).1 ((hd.alive y).mp hy).1 fd hxf hyf

/-- A request that goes leaves the list. -/
theorem Linked.erase (l : Linked s) (hpoll : s'.pollList = s.pollList.erase a)
    (hlive : ∀ b, s'.Alive b ↔ s.Alive b ∧ b ≠ a) : Linked s' := by
  refine ⟨?_, fun b => ?_⟩
  · rw [hpoll]
    exact l.nodup.erase a
  · rw [hpoll, l.nodup.mem_erase_iff, l.mem, hlive, and_comm]

/-- When neither the resolver nor the ident query is waited for, the request
goes and the client is released. -/
theorem Core.finish (h : Core s) (ha : s.Alive a) (hidle : ¬ s.Busy a) :
    Core (finish a s) ∧ ∀ b, (finish a s).Alive b ↔ s.Alive b ∧ b ≠ a := by
  have ho := h.own a ha
  obtain ⟨hdns, hdoing⟩ := not_or.mp hidle
  have hfd : (s.request a).fd = none := by
    rw [ho.doing] at hdoing
    cases hf : (s.request a).fd with
    | none => rfl
    | some fd =>
        rw [hf] at hdoing
        exact absurd rfl hdoing
  have hadns : s.adns (s.request a).client = none := by
    cases hq : s.adns (s.request a).client with
    | none => rfl
    | some b => exact absurd (ho.asked b hq).2.1 hdns
  have hlog : (AuthSt.finish a s).log =
      [.released (s.request a).client, .freed a] ++ s.log := rfl
  have hdrops : Drops a [.released (s.request a).client, .freed a] s (AuthSt.finish a s) := by
    refine ⟨rfl, rfl, hlog, fun e he => ?_, by simp, by simp, .inl (List.mem_cons_self ..),
      fun _ => List.mem_cons_self .., fun _ _ => ⟨rfl, rfl⟩, hadns, fun hq => ?_, fun _ _ => rfl,
      fun fd he => ?_⟩
    · rcases List.mem_cons.mp he with he | he
      · rw [he]
        exact .inr rfl
      · exact .inl (List.mem_singleton.mp he)
    · exact absurd hadns (h.canceled _ hq ho.held.2)
    · rw [hfd] at he
      cases he
  exact ⟨h.drop ha hdrops, hdrops.alive⟩

/-- A state `s'` that a callback for the request `a` leads to from `s`. -/
structure Settled (a : Nat) (s s' : AuthSt) : Prop where
  core : Core s'
  request : ∀ b, b ≠ a → s'.request b = s.request b
  alive : ∀ b, b ≠ a → (s'.Alive b ↔ s.Alive b)
  busy : s'.Alive a → s'.Busy a
  linked : Linked s → Linked s'
  client : (s'.request a).client = (s.request a).client
  waiting : (s'.request a).dnsPending = true →
    s'.pollList = s.pollList ∧ s'.made = s.made ∧ s'.Alive a

theorem Settled.sound (h : Sound s) (hs : Settled a s s') : Sound s' := by
  refine ⟨hs.core, hs.linked h.linked, fun b hb => ?_⟩
  by_cases hba : b = a
  · rw [hba] at hb ⊢
    exact hs.busy hb
  · rw [Busy, hs.request b hba]
    exact h.busy b ((hs.alive b hba).mp hb)

/-- What `s₁` has in common with the state before, while the request `a` is
worked on. -/
structure Near (a : Nat) (s s₁ : AuthSt) : Prop where
  request : ∀ b, b ≠ a → s₁.request b = s.request b
  client : (s₁.request a).client = (s.request a).client
  pollList : s₁.pollList = s.pollList
  made : s₁.made = s.made
  freed : ∀ b, .freed b ∈ s₁.log ↔ .freed b ∈ s.log

theorem Near.alive {s₁ : AuthSt} (n : Near a s s₁) (b : Nat) : s₁.Alive b ↔ s.Alive b := by
  rw [Alive, Alive, n.made, n.freed]

theorem Near.trans {s₁ s₂ : AuthSt} (n : Near a s s₁) (n' : Near a s₁ s₂) : Near a s s₂ :=
  ⟨fun b hb => (n'.request b hb).trans (n.request b hb), n'.client.trans n.client,
    n'.pollList.trans n.pollList, n'.made.trans n.made, fun b => (n'.freed b).trans (n.freed b)⟩

/-- A callback ends: the request goes on waiting, or the client is released. -/
theorem Near.settle {s₁ : AuthSt} (n : Near a s s₁) (h : Core s₁) (ha : s.Alive a) {p : Bool}
    (hp : p = true ↔ s₁.Busy a) : Settled a s (if p then s₁ else finish a s₁) := by
  have ha₁ := (n.alive a).mpr ha
  have hlinked : Linked s → Linked s₁ := by
    intro l
    refine ⟨?_, fun b => ?_⟩
    · rw [n.pollList]
      exact l.nodup
    · rw [n.pollList, l.mem, n.alive]
  split
  next hpt =>
    exact ⟨h, n.request, fun b _ => n.alive b, fun _ => hp.mp hpt, hlinked, n.client,
      fun _ => ⟨n.pollList, n.made, ha₁⟩⟩
  next hpf =>
    have hidle : ¬ s₁.Busy a := fun hb => hpf (hp.mpr hb)
    obtain ⟨hc, hlive⟩ := h.finish ha₁ hidle
    refine ⟨hc, n.request, fun b hb => ?_, fun hb => absurd rfl ((hlive a).mp hb).2,
      fun l => (hlinked l).erase rfl hlive, n.client, fun hd => absurd (Or.inl hd) hidle⟩
    rw [hlive, n.alive]
    exact and_iff_left hb

/-! ## Callbacks -/

/-- Noting what befalls the client changes nothing else. -/
theorem Core.noted (h : Core s) (ha : s.Alive a) {e : AuthEvent}
    (he : Mild (s.request a).client e)
    (hdns : e = .answered (s.request a).client → (s.request a).dnsPending = false)
    (hident : e = .identOver (s.request a).client → (s.request a).doingAuth = false) :
    Core (note e s) ∧ Near a s (note e s) := by
  have ho := h.own a ha
  obtain ⟨hfreed, hreleased, hexited, _, _⟩ := he.not_life
  have hlog : (note e s).log = [e] ++ s.log := rfl
  refine ⟨h.change ha ⟨rfl, rfl, fun _ _ => rfl, hlog, ?_, fun _ _ => ⟨rfl, rfl⟩,
    fun _ _ _ => rfl, fun _ he => Or.inl he, fun _ he hne => absurd he hne,
    fun hq => h.canceled _ hq ho.held.2, ?_⟩,
    ⟨fun _ _ => rfl, rfl, rfl, rfl, fun b => List.mem_cons.trans (or_iff_right ?_)⟩⟩
  · intro e' he'
    rw [List.mem_singleton.mp he']
    exact he
  · refine ⟨⟨fun hm => ?_, fun hm => ?_⟩, fun hm => ?_, fun hm => ?_,
      ho.query, ho.asked, ho.doing, ho.open_fd⟩
    · exact ho.held.1 ((List.mem_cons.mp hm).resolve_left (hreleased _).symm)
    · exact ho.held.2 ((List.mem_cons.mp hm).resolve_left (hexited _).symm)
    · rcases List.mem_cons.mp hm with hm | hm
      · exact hdns hm.symm
      · exact ho.dns hm
    · rcases List.mem_cons.mp hm with hm | hm
      · exact hident hm.symm
      · exact ho.ident hm
  · exact (hfreed b).symm

/-- Telling the client changes nothing. -/
theorem Core.told (h : Core s) (ha : s.Alive a) (r : Report) :
    Core (sendheader (s.request a).client r s) ∧
      Near a s (sendheader (s.request a).client r s) :=
  h.noted ha (Or.inr (Or.inr ⟨r, rfl⟩)) nofun nofun

/-- The resolver has answered, and the client has been told. -/
def answeredSt (a : Nat) (answer : DnsAnswer) (s : AuthSt) : AuthSt :=
  { s.setRequest a { s.request a with dnsPending := false } with
    adns := update s.adns (s.request a).client none
    dnsQuery := update s.dnsQuery (s.request a).client none
    log := .told (s.request a).client answer.report :: .answered (s.request a).client :: s.log }

theorem answeredSt_changes (ho : s.Own a) (answer : DnsAnswer) :
    Changes a [.told (s.request a).client answer.report, .answered (s.request a).client] s
      (answeredSt a answer s) := by
  have hreq : (answeredSt a answer s).request a = { s.request a with dnsPending := false } :=
    Function.update_self ..
  have hadns : (answeredSt a answer s).adns (s.request a).client = none := Function.update_self ..
  have hquery : (answeredSt a answer s).dnsQuery (s.request a).client = none :=
    Function.update_self ..
  refine ⟨rfl, by rw [hreq], fun b hb => Function.update_of_ne hb .., rfl, fun e he => ?_,
    fun c hc => ⟨Function.update_of_ne hc .., Function.update_of_ne hc ..⟩, fun _ _ _ => rfl,
    fun fd he => Or.inl ?_, fun fd he hne => absurd he ?_, fun he => ?_, ?_⟩
  · rcases List.mem_cons.mp he with he | he
    · exact Or.inr (Or.inr ⟨_, he⟩)
    · exact Or.inl (List.mem_singleton.mp he)
  · rw [hreq] at he
    exact he
  · rw [hreq] at hne
    exact hne
  · rw [hquery] at he
    cases he
  · constructor <;> rw [hreq]
    · simpa [answeredSt] using ho.held
    · exact fun _ => rfl
    · simpa [answeredSt, AuthRequest.doingAuth] using ho.ident
    · exact nofun
    · intro b hb
      rw [hadns] at hb
      cases hb
    · exact ho.doing
    · exact ho.open_fd

/-- The resolver answers. -/
theorem dnsAnswer_settled (h : Core s) {c : Nat} (hq : s.adns c = some a) (answer : DnsAnswer) :
    ∃ s', authDnsCallback a answer { s with
        adns := update s.adns c none
        dnsQuery := update s.dnsQuery c ((s.dnsQuery c).map fun _ => false) } = .ok s' ∧
      Settled a s s' := by
  obtain ⟨ha, rfl⟩ := h.asked c a hq
  have hc := answeredSt_changes (h.own a ha) answer
  have hreq : (answeredSt a answer s).request a = { s.request a with dnsPending := false } :=
    Function.update_self ..
  have hnear : Near a s (answeredSt a answer s) :=
    ⟨hc.other, hc.client, rfl, rfl, fun b => hc.mem_log (not_mild_freed _ b)⟩
  refine ⟨if ((answeredSt a answer s).request a).doingAuth then answeredSt a answer s
    else finish a (answeredSt a answer s), ?_, hnear.settle (h.change ha hc) ha ?_⟩
  · rw [authDnsCallback, if_neg ha.2]
    simp only [note, setRequest, sendheader, Function.update_idem, answeredSt]
    rfl
  · rw [Busy, hreq]
    exact (or_iff_right nofun).symm

/-- The ident query of one request goes on; nothing is asked of the resolver, and
nothing answered. -/
structure Dials (a : Nat) (es : List AuthEvent) (s s' : AuthSt) : Prop where
  made : s'.made = s.made
  pollList : s'.pollList = s.pollList
  adns : s'.adns = s.adns
  dnsQuery : s'.dnsQuery = s.dnsQuery
  client : (s'.request a).client = (s.request a).client
  dnsPending : (s'.request a).dnsPending = (s.request a).dnsPending
  other : ∀ b, b ≠ a → s'.request b = s.request b
  log : s'.log = es ++ s.log
  events : ∀ e ∈ es, e = .identOver (s.request a).client
  ident : .identOver (s.request a).client ∈ s'.log → (s'.request a).doingAuth = false
  doing : (s'.request a).doingAuth = (s'.request a).fd.isSome
  fd : ∀ fd, some fd ≠ (s.request a).fd → some fd ≠ (s'.request a).fd →
    s'.fdTable fd = s.fdTable fd
  new_fd : ∀ fd, (s'.request a).fd = some fd → (s.request a).fd = some fd ∨ s.fdTable fd = none
  old_fd : ∀ fd, (s.request a).fd = some fd → (s'.request a).fd ≠ some fd → s'.fdTable fd = none
  open_fd : ∀ fd, (s'.request a).fd = some fd →
    ∃ h, s'.fdTable fd = some h ∧ (h.waits = none ∨ h.waits = some a)

theorem Dials.core (hd : Dials a es s s') (h : Core s) (ha : s.Alive a) :
    Core s' ∧ Near a s s' := by
  have ho := h.own a ha
  have hmem : ∀ {e : AuthEvent}, e ∈ s'.log → e ≠ .identOver (s.request a).client →
      e ∈ s.log := by
    intro e hm he
    rw [hd.log, List.mem_append] at hm
    exact hm.resolve_left fun hm => he (hd.events e hm)
  refine ⟨h.change ha ⟨hd.made, hd.client, hd.other, hd.log,
    fun e he => .inr (.inl (hd.events e he)), fun _ _ => ⟨by rw [hd.adns], by rw [hd.dnsQuery]⟩,
    hd.fd, hd.new_fd, hd.old_fd, fun hq => ?_, ?_⟩,
    ⟨hd.other, hd.client, hd.pollList, hd.made, fun b => ⟨fun hm => hmem hm nofun, fun hm => ?_⟩⟩⟩
  · rw [hd.adns]
    rw [hd.dnsQuery] at hq
    exact h.canceled _ hq ho.held.2
  · constructor
    · rw [hd.client]
      exact ⟨fun hm => ho.held.1 (hmem hm nofun), fun hm => ho.held.2 (hmem hm nofun)⟩
    · rw [hd.client, hd.dnsPending]
      exact fun hm => ho.dns (hmem hm nofun)
    · rw [hd.client]
      exact hd.ident
    · rw [hd.client, hd.dnsPending, hd.dnsQuery]
      exact ho.query
    · rw [hd.client, hd.dnsPending, hd.adns, hd.dnsQuery]
      exact ho.asked
    · exact hd.doing
    · exact hd.open_fd
  · rw [hd.log]
    exact List.mem_append_right _ hm

theorem setRequest_self (a : Nat) (auth : AuthRequest) (s : AuthSt) :
    (s.setRequest a auth).request a = auth := Function.update_self ..

theorem setRequest_other {b : Nat} (hb : b ≠ a) (auth : AuthRequest) (s : AuthSt) :
    (s.setRequest a auth).request b = s.request b := Function.update_of_ne hb ..

/-- The request without its descriptor. -/
def hungUp (a fd : Nat) (s : AuthSt) : AuthSt :=
  { s.setRequest a { s.request a with fd := none, connecting := false, pending := false } with
    fdTable := update s.fdTable fd none
    log := .identOver (s.request a).client :: s.log }

theorem hungUp_dials {fd : Nat} (hfd : (s.request a).fd = some fd) :
    Dials a [.identOver (s.request a).client] s (hungUp a fd s) := by
  have hreq : (hungUp a fd s).request a =
      { s.request a with fd := none, connecting := false, pending := false } :=
    setRequest_self ..
  refine ⟨rfl, rfl, rfl, rfl, by rw [hreq], by rw [hreq], fun b hb => setRequest_other hb .., rfl,
    fun e he => List.mem_singleton.mp he, fun _ => by rw [hreq]; rfl, by rw [hreq]; rfl,
    fun fd' hne _ => ?_, fun fd' he => ?_, fun fd' he _ => ?_, fun fd' he => ?_⟩
  · rw [hfd] at hne
    exact Function.update_of_ne (fun he => hne (congrArg some he)) ..
  · rw [hreq] at he
    cases he
  · rw [hfd] at he
    cases he
    exact Function.update_self ..
  · rw [hreq] at he
    cases he

/-- The descriptor of a request is closed. -/
theorem closeIdent_core (h : Core s) (ha : s.Alive a) {fd : Nat}
    (hfd : (s.request a).fd = some fd) :
    ∃ s', closeIdent a s = .ok s' ∧ Core s' ∧ Near a s s' ∧
      (s'.request a).dnsPending = (s.request a).dnsPending ∧ (s'.request a).doingAuth = false := by
  obtain ⟨hd, hopen, _⟩ := (h.own a ha).open_fd fd hfd
  have hdials := hungUp_dials (s := s) hfd
  obtain ⟨hcore, hnear⟩ := hdials.core h ha
  refine ⟨hungUp a fd s, ?_, hcore, hnear, hdials.dnsPending, hdials.ident (List.mem_cons_self ..)⟩
  rw [closeIdent, fdClose.eq_def, hfd]
  simp only [hopen]
  rfl

/-- A descriptor waits for its request, or for nobody. -/
theorem Core.rewait (h : Core s) (ha : s.Alive a) {fd : Nat} (hfd : (s.request a).fd = some fd)
    (hd : FdHandler) (hw : hd.waits = none ∨ hd.waits = some a) :
    Core { s with fdTable := update s.fdTable fd (some hd) } ∧
      Near a s { s with fdTable := update s.fdTable fd (some hd) } := by
  have ho := h.own a ha
  refine Dials.core ⟨rfl, rfl, rfl, rfl, rfl, rfl, fun _ _ => rfl, (rfl : _ = [] ++ s.log),
    fun _ => nofun, ho.ident, ho.doing, fun fd' hne _ => ?_, fun _ he => Or.inl he,
    fun _ he hne => absurd he hne, fun fd' he => ?_⟩ h ha
  · rw [hfd] at hne
    exact Function.update_of_ne (fun he => hne (congrArg some he)) ..
  · rw [hfd] at he
    cases he
    exact ⟨hd, Function.update_self .., hw⟩

/-- The connect is through. -/
theorem Core.connected (h : Core s) (ha : s.Alive a) {fd : Nat}
    (hfd : (s.request a).fd = some fd) :
    Core (s.setRequest a { s.request a with connecting := false, pending := true }) ∧
      Near a s (s.setRequest a { s.request a with connecting := false, pending := true }) := by
  have ho := h.own a ha
  have hdoing : (s.request a).doingAuth = true := by
    rw [ho.doing, hfd]
    rfl
  have hreq : (s.setRequest a { s.request a with connecting := false, pending := true }).request a =
      { s.request a with connecting := false, pending := true } := setRequest_self ..
  refine Dials.core ⟨rfl, rfl, rfl, rfl, by rw [hreq], by rw [hreq],
    fun b hb => setRequest_other hb .., (rfl : _ = [] ++ s.log), fun _ => nofun, fun hi => ?_, ?_,
    fun _ _ _ => rfl, fun fd' he => Or.inl ?_, fun fd' he hne => absurd he ?_, ?_⟩ h ha
  · rw [ho.ident hi] at hdoing
    cases hdoing
  · rw [hreq, hfd]
    rfl
  · rw [hreq] at he
    exact he
  · rw [hreq] at hne
    exact hne
  · rw [hreq]
    exact ho.open_fd

/-- A state that a callback of the ident query leads to. -/
structure Heard (a : Nat) (s s' : AuthSt) : Prop extends Settled a s s' where
  dnsPending : (s'.request a).dnsPending = (s.request a).dnsPending

/-- What was settled from a state nearby. -/
theorem Near.settled {s₁ : AuthSt} (n : Near a s s₁) (hs : Settled a s₁ s') : Settled a s s' := by
  refine ⟨hs.core, fun b hb => (hs.request b hb).trans (n.request b hb),
    fun b hb => (hs.alive b hb).trans (n.alive b), hs.busy, fun l => hs.linked ?_,
    hs.client.trans n.client, fun hd => ?_⟩
  · refine ⟨?_, fun b => ?_⟩
    · rw [n.pollList]
      exact l.nodup
    · rw [n.pollList, l.mem, n.alive]
  · obtain ⟨hpoll, hmade, hlive⟩ := hs.waiting hd
    exact ⟨hpoll.trans n.pollList, hmade.trans n.made, hlive⟩

theorem Near.heard {s₁ : AuthSt} (n : Near a s s₁)
    (hd : (s₁.request a).dnsPending = (s.request a).dnsPending) (hs : Heard a s₁ s') :
    Heard a s s' :=
  ⟨n.settled hs.toSettled, hs.dnsPending.trans hd⟩

/-- The ident query is over, and the request waits for the resolver or goes. -/
theorem closed_heard {s₁ : AuthSt} (n : Near a s s₁) (h : Core s₁) (ha : s.Alive a)
    (hd : (s₁.request a).dnsPending = (s.request a).dnsPending)
    (hdoing : (s₁.request a).doingAuth = false) :
    Heard a s (if (s₁.request a).dnsPending then s₁ else finish a s₁) := by
  refine ⟨n.settle h ha ?_, ?_⟩
  · rw [Busy, hdoing]
    exact (or_iff_left nofun).symm
  · split
    · exact hd
    · exact hd

theorem authError_heard (h : Core s) (ha : s.Alive a) {fd : Nat}
    (hfd : (s.request a).fd = some fd) : ∃ s', authError a s = .ok s' ∧ Heard a s s' := by
  obtain ⟨s₁, hclose, hc, n, hd, hdoing⟩ := closeIdent_core h ha hfd
  obtain ⟨hc₂, n₂⟩ := hc.told ((n.alive a).mpr ha) .failId
  rw [authError, hclose]
  exact ⟨_, rfl, closed_heard (n.trans n₂) hc₂ ha hd hdoing⟩

theorem readAuthReply_heard (h : Core s) (ha : s.Alive a) {fd : Nat}
    (hfd : (s.request a).fd = some fd) (recv : IdentRead) :
    ∃ s', readAuthReply fd a recv s = .ok s' ∧ Heard a s s' := by
  have hdoing : (s.request a).doingAuth = true := by
    rw [(h.own a ha).doing, hfd]
    rfl
  rw [readAuthReply.eq_def, if_neg ha.2]
  cases recv with
  | wouldBlock =>
      obtain ⟨hc, n⟩ := h.rewait ha hfd (.read a) (Or.inr rfl)
      refine ⟨_, rfl, ?_, rfl⟩
      have hs := n.settle hc ha (p := true) (iff_of_true rfl (Or.inr hdoing))
      exact hs
  | reply valid =>
      obtain ⟨s₁, hclose, hc, n, hd, hdoing'⟩ := closeIdent_core h ha hfd
      simp only [hclose]
      cases valid with
      | false => exact ⟨_, rfl, closed_heard n hc ha hd hdoing'⟩
      | true =>
          obtain ⟨hc₂, n₂⟩ := hc.told ((n.alive a).mpr ha) .finId
          exact ⟨_, rfl, closed_heard (n.trans n₂) hc₂ ha hd hdoing'⟩

theorem authConnectCallback_heard (h : Core s) (ha : s.Alive a) {fd : Nat}
    (hfd : (s.request a).fd = some fd) (res : IdentConnect) :
    ∃ s', authConnectCallback a res s = .ok s' ∧ Heard a s s' := by
  rw [authConnectCallback.eq_def, if_neg ha.2]
  cases res with
  | failed => exact authError_heard h ha hfd
  | connected recv =>
      obtain ⟨hc, n⟩ := h.connected ha hfd
      have hreq := setRequest_self a { s.request a with connecting := false, pending := true } s
      have hfd₁ := (congrArg AuthRequest.fd hreq).trans hfd
      obtain ⟨s', hread, hs⟩ := readAuthReply_heard hc ((n.alive a).mpr ha) hfd₁ recv
      refine ⟨s', ?_, n.heard ?_ hs⟩
      · simp only [hfd₁]
        exact hread
      · rw [hreq]

theorem commConnectCallback_heard (h : Core s) {fd : Nat} (hfd : s.fdTable fd = some (.connect a))
    (res : IdentConnect) : ∃ s', commConnectCallback fd res s = .ok s' ∧ Heard a s s' := by
  obtain ⟨ha, hafd⟩ := h.handler fd _ a hfd rfl
  obtain ⟨hc, n⟩ := h.rewait ha hafd .idle (Or.inl rfl)
  obtain ⟨s', hcall, hs⟩ := authConnectCallback_heard hc ((n.alive a).mpr ha) hafd res
  refine ⟨s', ?_, n.heard rfl hs⟩
  rw [commConnectCallback]
  simp only [hfd]
  exact hcall

theorem readReady_heard (h : Core s) {fd : Nat} (hfd : s.fdTable fd = some (.read a))
    (recv : IdentRead) :
    ∃ s', readAuthReply fd a recv { s with fdTable := update s.fdTable fd (some .idle) } = .ok s' ∧
      Heard a s s' := by
  obtain ⟨ha, hafd⟩ := h.handler fd _ a hfd rfl
  obtain ⟨hc, n⟩ := h.rewait ha hafd .idle (Or.inl rfl)
  obtain ⟨s', hread, hs⟩ := readAuthReply_heard hc ((n.alive a).mpr ha) hafd recv
  exact ⟨s', hread, n.heard rfl hs⟩

/-! ## Time runs out, or the client exits -/

/-- The descriptors when that of the request is closed. -/
def closedFd (s : AuthSt) (a : Nat) : Nat → Option FdHandler :=
  match (s.request a).fd with
  | none => s.fdTable
  | some fd => update s.fdTable fd none

theorem close_ok (ho : ∀ fd, (s.request a).fd = some fd → ∃ h, s.fdTable fd = some h) :
    (if (s.request a).fd.isSome then fdClose (s.request a).fd s else .ok s) =
      .ok { s with fdTable := s.closedFd a } := by
  rw [closedFd]
  cases hfd : (s.request a).fd with
  | none => rfl
  | some fd =>
      obtain ⟨hd, hopen⟩ := ho fd hfd
      rw [if_pos (Option.isSome_some ..), fdClose.eq_def]
      simp only [hopen]

theorem closedFd_self {fd : Nat} (hfd : (s.request a).fd = some fd) : s.closedFd a fd = none := by
  rw [closedFd, hfd]
  exact Function.update_self ..

theorem closedFd_other {fd : Nat} (hfd : (s.request a).fd ≠ some fd) :
    s.closedFd a fd = s.fdTable fd := by
  rw [closedFd]
  cases hafd : (s.request a).fd with
  | none => rfl
  | some fd' =>
      rw [hafd] at hfd
      exact Function.update_of_ne (fun he => hfd (congrArg some he.symm)) ..

/-- The query of a client that has not exited is cancelled if there is one. -/
theorem Core.delete (h : Core s) {c : Nat} (hx : .exited c ∉ s.log) (s₁ : AuthSt)
    (hd : s₁.dnsQuery = s.dnsQuery) (hn : s₁.adns = s.adns) :
    deleteAdnsQueries c s₁ = .ok { s₁ with adns := update s₁.adns c none } := by
  rw [deleteAdnsQueries.eq_def, hd, hn]
  cases hadns : s.adns c with
  | some b =>
      obtain ⟨hb, hbc⟩ := h.asked c b hadns
      rw [← hbc] at hadns ⊢
      rw [((h.own b hb).asked b hadns).2.2]
  | none =>
      have hsame : update s.adns c none = s.adns := by
        rw [← hadns, Function.update_eq_self]
      rw [hsame, ← hn]
      split
      next hq => exact absurd hadns (h.canceled c hq hx)
      next => rw [← hd]

/-- What the client is told when its time is over. -/
def notices (s : AuthSt) (a : Nat) : List AuthEvent :=
  (if (s.request a).dnsPending then [.told (s.request a).client .failDns] else []) ++
    (if (s.request a).doingAuth then [.told (s.request a).client .failId] else [])

/-- What `timeout_auth_queries_event` does about a request. -/
def timedEvents (s : AuthSt) (a : Nat) : List AuthEvent :=
  .released (s.request a).client :: .freed a :: .timedOut (s.request a).client :: s.notices a

/-- And what is left. -/
def timedSt (a : Nat) (s : AuthSt) : AuthSt :=
  { s with
    pollList := s.pollList.erase a
    fdTable := s.closedFd a
    adns := update s.adns (s.request a).client none
    dnsQuery := if (s.request a).dnsPending then
      update s.dnsQuery (s.request a).client (some false) else s.dnsQuery
    log := s.timedEvents a ++ s.log }

theorem mem_notices {e : AuthEvent} (he : e ∈ s.notices a) :
    ∃ r, e = .told (s.request a).client r := by
  rcases List.mem_append.mp he with he | he
  all_goals
    split at he
    · exact ⟨_, List.mem_singleton.mp he⟩
    · cases he

theorem count_notices {e : AuthEvent} (he : ∀ r, e ≠ .told (s.request a).client r) :
    (s.notices a).count e = 0 := by
  refine List.count_eq_zero.mpr fun hm => ?_
  obtain ⟨r, hr⟩ := mem_notices hm
  exact he r hr

/-- The resolver is asked for a request that waits for it. -/
theorem Own.no_query (ho : s.Own a) (hd : (s.request a).dnsPending = false) :
    s.adns (s.request a).client = none := by
  cases hq : s.adns (s.request a).client with
  | none => rfl
  | some b =>
      have hp := (ho.asked b hq).2.1
      rw [hd] at hp
      cases hp

theorem timeOut_eq (h : Core s) (ha : s.Alive a) : timeOut a s = .ok (timedSt a s) := by
  have ho := h.own a ha
  simp only [timeOut, timedSt, timedEvents, notices]
  rw [close_ok fun fd hfd => (ho.open_fd fd hfd).imp fun _ => And.left]
  cases hd : (s.request a).dnsPending with
  | false =>
      have hsame : update s.adns (s.request a).client none = s.adns := by
        rw [← ho.no_query hd, Function.update_eq_self]
      rw [hsame]
      cases (s.request a).doingAuth with
      | false => rfl
      | true => rfl
  | true =>
      obtain ⟨q, hq⟩ := Option.ne_none_iff_exists'.mp (ho.query hd)
      cases (s.request a).doingAuth with
      | false =>
          dsimp only [Except.bind]
          rw [if_pos rfl, if_neg nofun,
            h.delete ho.held.2 { s with fdTable := s.closedFd a } rfl rfl]
          dsimp only
          rw [hq]
          rfl
      | true =>
          dsimp only [Except.bind]
          rw [if_pos rfl, if_pos rfl, h.delete ho.held.2
            (sendheader (s.request a).client .failId { s with fdTable := s.closedFd a }) rfl rfl]
          dsimp only [sendheader, note]
          rw [hq]
          rfl

theorem timedSt_drops (h : Core s) (ha : s.Alive a) :
    Drops a (s.timedEvents a) s (timedSt a s) where
  request := rfl
  made := rfl
  log := rfl
  events e he := by
    rcases List.mem_cons.mp he with he | he
    · exact .inr (by rw [he]; rfl)
    rcases List.mem_cons.mp he with he | he
    · exact .inl he
    rcases List.mem_cons.mp he with he | he
    · exact .inr (by rw [he]; rfl)
    · obtain ⟨r, hr⟩ := mem_notices he
      exact .inr (by rw [hr]; rfl)
  freed := by
    have hnone := count_notices (s := s) (a := a) (e := .freed a) fun _ => nofun
    simp [timedEvents, hnone]
  released := by
    have hnone := count_notices (s := s) (a := a) (e := .released (s.request a).client)
      fun _ => nofun
    simp [timedEvents, hnone]
  gone := .inl (List.mem_cons_self ..)
  timed _ := List.mem_cons_self ..
  dns c hc := by
    refine ⟨Function.update_of_ne hc .., ?_⟩
    dsimp only [timedSt]
    split
    · exact Function.update_of_ne hc ..
    · rfl
  adns := Function.update_self ..
  query hq := by
    dsimp only [timedSt] at hq
    split at hq
    · rw [Function.update_self] at hq
      cases hq
    next hd =>
      have ho := h.own a ha
      exact absurd (ho.no_query (eq_false_of_ne_true hd)) (h.canceled _ hq ho.held.2)
  fd _ hfd := closedFd_other hfd
  closed _ hfd := closedFd_self hfd

/-- The loop releases those whose time is over, and no other is touched. -/
theorem timeoutLoop_sound (timeofday : Int) : ∀ (l : List Nat) {s : AuthSt}, Sound s →
    l.Nodup → (∀ a ∈ l, s.Alive a) → ∃ s', timeoutLoop timeofday l s = .ok s' ∧ Sound s'
  | [], s, h, _, _ => ⟨s, rfl, h⟩
  | a :: rest, s, h, hnodup, hlive => by
      have ha := hlive a (List.mem_cons_self ..)
      obtain ⟨hmem, hrest⟩ := List.nodup_cons.mp hnodup
      rw [timeoutLoop, if_neg ha.2]
      split
      · have hd := timedSt_drops h.core ha
        have h₁ : Sound (timedSt a s) :=
          ⟨h.core.drop ha hd, h.linked.erase rfl hd.alive,
            fun b hb => h.busy b ((hd.alive b).mp hb).1⟩
        rw [timeOut_eq h.core ha]
        refine timeoutLoop_sound timeofday rest h₁ hrest fun b hb => (hd.alive b).mpr ?_
        exact ⟨hlive b (List.mem_cons_of_mem _ hb), fun he => hmem (by rw [← he]; exact hb)⟩
      · exact timeoutLoop_sound timeofday rest h hrest
          fun b hb => hlive b (List.mem_cons_of_mem _ hb)

/-- The state when the request of a client that exits is freed. -/
def goneSt (a : Nat) (s : AuthSt) : AuthSt :=
  note (.freed a) { s with fdTable := s.closedFd a, pollList := s.pollList.erase a }

theorem deleteLoop_none {target : Nat} : ∀ {l : List Nat} {s : AuthSt},
    (∀ b ∈ l, .freed b ∉ s.log ∧ (s.request b).client ≠ target) → deleteLoop target l s = .ok s
  | [], _, _ => rfl
  | b :: rest, s, h => by
      obtain ⟨hfree, hne⟩ := h b (List.mem_cons_self ..)
      rw [deleteLoop, if_neg hfree, if_neg hne]
      exact deleteLoop_none fun x hx => h x (List.mem_cons_of_mem _ hx)

/-- A client has one request, which the loop finds. -/
theorem deleteLoop_one {target : Nat} : ∀ {l : List Nat} {s : AuthSt}, l.Nodup → a ∈ l →
    (s.request a).client = target →
    (if (s.request a).fd.isSome then fdClose (s.request a).fd s else .ok s) =
      .ok { s with fdTable := s.closedFd a } →
    (∀ b ∈ l, .freed b ∉ s.log) → (∀ b ∈ l, b ≠ a → (s.request b).client ≠ target) →
    deleteLoop target l s = .ok (goneSt a s)
  | b :: rest, s, hnodup, hmem, ha, hclose, hfree, hne => by
      obtain ⟨hb, hrest⟩ := List.nodup_cons.mp hnodup
      rw [deleteLoop, if_neg (hfree b (List.mem_cons_self ..))]
      by_cases hba : b = a
      · rw [hba] at hb ⊢
        rw [if_pos ha, hclose]
        refine deleteLoop_none fun x hx => ⟨fun hm => ?_, ?_⟩
        · rcases List.mem_cons.mp hm with he | he
          · cases he
            exact hb hx
          · exact hfree x (List.mem_cons_of_mem _ hx) he
        · exact hne x (List.mem_cons_of_mem _ hx) fun he => hb (by rw [← he]; exact hx)
      · rw [if_neg (hne b (List.mem_cons_self ..) hba)]
        have ha' := (List.mem_cons.mp hmem).resolve_left fun he => hba he.symm
        exact deleteLoop_one hrest ha' ha hclose
          (fun x hx => hfree x (List.mem_cons_of_mem _ hx))
          fun x hx => hne x (List.mem_cons_of_mem _ hx)

/-- A client exits that has no request any more. -/
theorem Core.exit (h : Core s) {c : Nat} (hc : ∃ a < s.made, (s.request a).client = c)
    (hno : ∀ a, s.Alive a → (s.request a).client ≠ c) :
    Core { note (.exited c) s with adns := update s.adns c none } := by
  have hold : ∀ e, e ∈ AuthEvent.exited c :: s.log → e ≠ .exited c → e ∈ s.log := fun e hm he =>
    (List.mem_cons.mp hm).resolve_left he
  have hlive : ∀ b, Alive { note (.exited c) s with adns := update s.adns c none } b ↔
      s.Alive b := fun b => and_congr_right fun _ =>
    not_congr (List.mem_cons.trans (or_iff_right nofun))
  have hadns : ∀ d b, update s.adns c none d = some b → s.adns d = some b := by
    intro d b hq
    by_cases hd : d = c
    · rw [hd, Function.update_self] at hq
      cases hq
    · rwa [Function.update_of_ne hd] at hq
  refine ⟨fun b hb => ?_, fun b hb => h.freed_made b (hold _ hb nofun), fun b => ?_,
    fun d => ?_, fun e he d hw => ?_, h.inj, fun b hb hf => ?_, fun d hd => ?_, fun d b hq => ?_,
    fun d hq hx => ?_, fun fd hd b hget hw => ?_, fun x y hx hy => ?_⟩
  · have hb' := (hlive b).mp hb
    have hne := hno b hb'
    refine (h.own b hb').frame rfl (fun e hw hm => hold e hm ?_)
      ⟨Function.update_of_ne hne .., rfl⟩ fun _ _ => rfl
    rintro rfl
    exact hne (Option.some.inj hw).symm
  · simpa [note] using h.freed_once b
  · simpa [note] using h.released_once d
  · rcases List.mem_cons.mp he with he | he
    · rw [he] at hw
      cases hw
      exact hc
    · exact h.known e he d hw
  · exact (h.gone b hb (hold _ hf nofun)).imp (List.mem_cons_of_mem _) (List.mem_cons_of_mem _)
  · exact List.mem_cons_of_mem _ (h.timed d (hold _ hd nofun))
  · obtain ⟨hb, hbd⟩ := h.asked d b (hadns d b hq)
    exact ⟨(hlive b).mpr hb, hbd⟩
  · have hdc : d ≠ c := fun he => hx (by rw [he]; exact List.mem_cons_self ..)
    have hset := h.canceled d hq fun hm => hx (List.mem_cons_of_mem _ hm)
    rwa [← Function.update_of_ne hdc none s.adns] at hset
  · obtain ⟨hb, hbfd⟩ := h.handler fd hd b hget hw
    exact ⟨(hlive b).mpr hb, hbfd⟩
  · exact h.fd_inj x y ((hlive x).mp hx) ((hlive y).mp hy)

theorem started_iff {c : Nat} : s.started c = true ↔ ∃ a < s.made, (s.request a).client = c := by
  rw [started, List.any_eq_true]
  simp

theorem exitClient_sound (h : Sound s) {c : Nat} (hc : s.started c = true)
    (hx : .exited c ∉ s.log) : ∃ s', exitClient c s = .ok s' ∧ Sound s' := by
  have hloop : exitClient c s = deleteLoop c s.pollList
      { note (.exited c) s with adns := update s.adns c none } := by
    rw [exitClient, h.core.delete hx (note (.exited c) s) rfl rfl]
    rfl
  have hlive : ∀ b ∈ s.pollList, .freed b ∉ AuthEvent.exited c :: s.log := by
    intro b hb hm
    exact ((h.linked.mem b).mp hb).2 ((List.mem_cons.mp hm).resolve_left nofun)
  rw [hloop]
  by_cases hreq : ∃ a, s.Alive a ∧ (s.request a).client = c
  · obtain ⟨a, ha, hac⟩ := hreq
    have ho := h.core.own a ha
    refine ⟨_, deleteLoop_one h.linked.nodup ((h.linked.mem a).mpr ha) hac
      (close_ok fun fd hfd => (ho.open_fd fd hfd).imp fun _ => And.left) hlive
      fun b hb hne he => ?_, ?_⟩
    · exact h.core.client_ne ha ((h.linked.mem b).mp hb) hne (he.trans hac.symm)
    have hdrop : Drops a [.freed a, .exited c] s
        (goneSt a { note (.exited c) s with adns := update s.adns c none }) := by
      refine ⟨rfl, rfl, rfl, fun e he => ?_, by simp, by simp, .inr (by simp [hac]), by simp,
        fun d hd => ⟨?_, rfl⟩, ?_, fun _ => by simp [hac], fun fd hfd => closedFd_other hfd,
        fun fd hfd => closedFd_self hfd⟩
      · rcases List.mem_cons.mp he with he | he
        · exact Or.inl he
        · exact Or.inr (by rw [List.mem_singleton.mp he, hac]; rfl)
      · rw [hac] at hd
        exact Function.update_of_ne hd ..
      · rw [hac]
        exact Function.update_self ..
    exact ⟨h.core.drop ha hdrop, h.linked.erase rfl hdrop.alive,
      fun b hb => h.busy b ((hdrop.alive b).mp hb).1⟩
  · have hno : ∀ a, s.Alive a → (s.request a).client ≠ c := fun a ha he => hreq ⟨a, ha, he⟩
    refine ⟨_, deleteLoop_none fun b hb => ⟨hlive b hb, hno b ((h.linked.mem b).mp hb)⟩,
      h.core.exit (started_iff.mp hc) hno, ⟨h.linked.nodup, fun b => ?_⟩, fun b hb => ?_⟩
    · refine (h.linked.mem b).trans (and_congr_right fun _ => not_congr ?_)
      exact ⟨List.mem_cons_of_mem _, fun hm => (List.mem_cons.mp hm).resolve_left nofun⟩
    · exact h.busy b ⟨hb.1, fun hm => hb.2 (List.mem_cons_of_mem _ hm)⟩

/-! ## A client comes -/

/-- The state in which `start_auth` makes the ident query. -/
def askedSt (c : Nat) (timeofday : Int) (submitted : Bool) (s : AuthSt) : AuthSt where
  request := update s.request s.made ⟨c, false, false, true, none, timeofday + connectTimeout⟩
  made := s.made + 1
  pollList := s.pollList
  dnsQuery := update s.dnsQuery c (some submitted)
  adns := update s.adns c (if submitted then some s.made else none)
  fdTable := s.fdTable
  log := .told c .doDns :: s.log

theorem startAuth_eq (c : Nat) (timeofday : Int) (submitted : Bool) (start : IdentStart)
    (s : AuthSt) : startAuth c timeofday submitted start s =
      (startAuthQuery s.made start (askedSt c timeofday submitted s)).map fun t =>
        { t with pollList := s.made :: t.pollList } := by
  simp only [startAuth, askedSt, setRequest, sendheader, note, Function.update_self,
    Function.update_idem]

/-- A request is made for a client that has none, and the resolver is asked. -/
structure Starts (c : Nat) (submitted : Bool) (s s' : AuthSt) : Prop where
  fresh : ∀ a < s.made, (s.request a).client ≠ c
  made : s'.made = s.made + 1
  client : (s'.request s.made).client = c
  pending : (s'.request s.made).dnsPending = true
  fd : (s'.request s.made).fd = none
  doing : (s'.request s.made).doingAuth = false
  other : ∀ b < s.made, s'.request b = s.request b
  log : s'.log = .told c .doDns :: s.log
  table : s'.fdTable = s.fdTable
  dns : ∀ d, d ≠ c → s'.adns d = s.adns d ∧ s'.dnsQuery d = s.dnsQuery d
  adns : s'.adns c = if submitted then some s.made else none
  query : s'.dnsQuery c = some submitted

theorem askedSt_starts {c : Nat} (hc : ¬ s.started c = true) (timeofday : Int)
    (submitted : Bool) : Starts c submitted s (askedSt c timeofday submitted s) := by
  have hself : (askedSt c timeofday submitted s).request s.made =
      ⟨c, false, false, true, none, timeofday + connectTimeout⟩ := Function.update_self ..
  refine ⟨fun a ha he => hc (started_iff.mpr ⟨a, ha, he⟩), rfl, by rw [hself], by rw [hself],
    by rw [hself], by rw [hself]; rfl, fun b hb => ?_, rfl, rfl, fun d hd => ?_,
    Function.update_self .., Function.update_self ..⟩
  · exact Function.update_of_ne (Nat.ne_of_lt hb) ..
  · exact ⟨Function.update_of_ne hd .., Function.update_of_ne hd ..⟩

namespace Starts

variable {c : Nat} {submitted : Bool} (hs : Starts c submitted s s')

include hs in
theorem mem_log (e : AuthEvent) (he : e ≠ .told c .doDns) : e ∈ s'.log ↔ e ∈ s.log := by
  rw [hs.log, List.mem_cons]
  exact or_iff_right he

include hs in
/-- Nothing has happened to the client before. -/
theorem not_mem (h : Core s) {e : AuthEvent} (hw : e.who = some c) : e ∉ s.log := by
  intro he
  obtain ⟨a, ha, hac⟩ := h.known e he c hw
  exact hs.fresh a ha hac

include hs in
theorem alive (h : Core s) (b : Nat) : s'.Alive b ↔ s.Alive b ∨ b = s.made := by
  have hnew : .freed s.made ∉ s.log := fun hm => Nat.lt_irrefl _ (h.freed_made _ hm)
  rw [Alive, Alive, hs.made, hs.mem_log (.freed b) nofun, Nat.lt_succ_iff_lt_or_eq, or_and_right]
  refine or_congr_right (and_iff_left_of_imp ?_)
  rintro rfl
  exact hnew

include hs in
theorem own_old (h : Core s) {b : Nat} (hb : s.Alive b) : s'.Own b := by
  refine (h.own b hb).frame (hs.other b hb.1) (fun e hw => (hs.mem_log e ?_).mp)
    (hs.dns _ (hs.fresh b hb.1)) fun fd _ => congrFun hs.table fd
  rintro rfl
  exact hs.fresh b hb.1 (Option.some.inj hw).symm

include hs in
theorem own_new (h : Core s) : s'.Own s.made where
  held := by
    rw [hs.client, hs.mem_log (.released c) nofun, hs.mem_log (.exited c) nofun]
    exact ⟨hs.not_mem h rfl, hs.not_mem h rfl⟩
  dns hm := by
    rw [hs.client, hs.mem_log (.answered c) nofun] at hm
    exact absurd hm (hs.not_mem h rfl)
  ident _ := hs.doing
  query _ := by
    rw [hs.client, hs.query]
    exact nofun
  asked b hb := by
    rw [hs.client, hs.adns] at hb
    split at hb
    next ht =>
      cases hb
      exact ⟨rfl, hs.pending, by rw [hs.client, hs.query, ht]⟩
    · cases hb
  doing := by
    rw [hs.doing, hs.fd]
    rfl
  open_fd fd hfd := by
    rw [hs.fd] at hfd
    cases hfd

include hs in
/-- No request that was made before has the client of another. -/
theorem inj (h : Core s) {x y : Nat} (hx : x < s'.made) (hy : y < s'.made)
    (hxy : (s'.request x).client = (s'.request y).client) : x = y := by
  rw [hs.made, Nat.lt_succ_iff_lt_or_eq] at hx hy
  rcases hx with hx | rfl
  · rw [hs.other x hx] at hxy
    rcases hy with hy | rfl
    · rw [hs.other y hy] at hxy
      exact h.inj x hx y hy hxy
    · rw [hs.client] at hxy
      exact absurd hxy (hs.fresh x hx)
  · rcases hy with hy | hy
    · rw [hs.other y hy, hs.client] at hxy
      exact absurd hxy.symm (hs.fresh y hy)
    · exact hy.symm

include hs in
theorem known (h : Core s) {e : AuthEvent} (he : e ∈ s'.log) {d : Nat} (hw : e.who = some d) :
    ∃ b < s'.made, (s'.request b).client = d := by
  rw [hs.log] at he
  rw [hs.made]
  rcases List.mem_cons.mp he with he | he
  · rw [he] at hw
    cases hw
    exact ⟨s.made, Nat.lt_succ_self _, hs.client⟩
  · obtain ⟨b, hb, hbd⟩ := h.known e he d hw
    exact ⟨b, Nat.lt_succ_of_lt hb, by rw [hs.other b hb]; exact hbd⟩

include hs in
theorem asked (h : Core s) {d b : Nat} (hq : s'.adns d = some b) :
    s'.Alive b ∧ (s'.request b).client = d := by
  by_cases hdc : d = c
  · rw [hdc, hs.adns] at hq
    split at hq
    · cases hq
      exact ⟨(hs.alive h _).mpr (.inr rfl), hs.client.trans hdc.symm⟩
    · cases hq
  · rw [(hs.dns d hdc).1] at hq
    obtain ⟨hb, hbd⟩ := h.asked d b hq
    exact ⟨(hs.alive h b).mpr (.inl hb), by rw [hs.other b hb.1]; exact hbd⟩

include hs in
theorem canceled (h : Core s) {d : Nat} (hq : s'.dnsQuery d = some true)
    (hx : .exited d ∉ s'.log) : s'.adns d ≠ none := by
  by_cases hdc : d = c
  · rw [hdc, hs.query] at hq
    rw [hdc, hs.adns, if_pos (Option.some.inj hq)]
    exact nofun
  · rw [(hs.dns d hdc).2] at hq
    rw [(hs.dns d hdc).1]
    exact h.canceled d hq fun hm => hx ((hs.mem_log (.exited d) nofun).mpr hm)

include hs in
theorem handler (h : Core s) {fd b : Nat} {hdl : FdHandler} (hget : s'.fdTable fd = some hdl)
    (hw : hdl.waits = some b) : s'.Alive b ∧ (s'.request b).fd = some fd := by
  rw [hs.table] at hget
  obtain ⟨hb, hbfd⟩ := h.handler fd hdl b hget hw
  exact ⟨(hs.alive h b).mpr (.inl hb), by rw [hs.other b hb.1]; exact hbfd⟩

include hs in
/-- Who has a descriptor had it before. -/
theorem had_fd (h : Core s) {x fd : Nat} (hx : s'.Alive x) (hxf : (s'.request x).fd = some fd) :
    s.Alive x ∧ (s.request x).fd = some fd := by
  rcases (hs.alive h x).mp hx with hx | rfl
  · rw [hs.other x hx.1] at hxf
    exact ⟨hx, hxf⟩
  · rw [hs.fd] at hxf
    cases hxf

end Starts

/-- The new request takes nothing from the others. -/
theorem Core.start (h : Core s) {c : Nat} {submitted : Bool} (hs : Starts c submitted s s') :
    Core s' where
  own b hb := by
    rcases (hs.alive h b).mp hb with hb | rfl
    · exact hs.own_old h hb
    · exact hs.own_new h
  freed_made b hb := by
    rw [hs.made]
    exact Nat.lt_succ_of_lt (h.freed_made b ((hs.mem_log (.freed b) nofun).mp hb))
  freed_once b := by
    rw [hs.log]
    simpa using h.freed_once b
  released_once d := by
    rw [hs.log]
    simpa using h.released_once d
  known e he d hw := hs.known h he hw
  inj x hx y hy hxy := hs.inj h hx hy hxy
  gone b hb hf := by
    have hf' := (hs.mem_log (.freed b) nofun).mp hf
    have hb' := h.freed_made b hf'
    rw [hs.other b hb', hs.mem_log (.released _) nofun, hs.mem_log (.exited _) nofun]
    exact h.gone b hb' hf'
  timed d hd := (hs.mem_log (.released d) nofun).mpr
    (h.timed d ((hs.mem_log (.timedOut d) nofun).mp hd))
  asked d b hq := hs.asked h hq
  canceled d hq hx := hs.canceled h hq hx
  handler fd hdl b hget hw := hs.handler h hget hw
  fd_inj x y hx hy fd hxf hyf := by
    obtain ⟨hx, hxf⟩ := hs.had_fd h hx hxf
    obtain ⟨hy, hyf⟩ := hs.had_fd h hy hyf
    exact h.fd_inj x y hx hy fd hxf hyf

/-- The state in which the connect is started. -/
def openedSt (a fd : Nat) (s : AuthSt) : AuthSt :=
  { s.setRequest a { s.request a with fd := some fd, connecting := true } with
    fdTable := update s.fdTable fd (some (.connect a)) }

/-- A socket is opened for a request that has none. -/
theorem Core.opened (h : Core s) (ha : s.Alive a) (hnone : (s.request a).fd = none) {fd : Nat}
    (hfree : s.fdTable fd = none) (hover : .identOver (s.request a).client ∉ s.log) :
    Core (openedSt a fd s) ∧ Near a s (openedSt a fd s) ∧
      ((openedSt a fd s).request a).dnsPending = (s.request a).dnsPending := by
  have hreq : (openedSt a fd s).request a =
      { s.request a with fd := some fd, connecting := true } := setRequest_self ..
  have hdials : Dials a [] s (openedSt a fd s) := by
    refine ⟨rfl, rfl, rfl, rfl, by rw [hreq], by rw [hreq], fun b hb => setRequest_other hb .., rfl,
      fun _ => nofun, fun hi => absurd hi hover, ?_, fun fd' _ hne => ?_, fun fd' he => Or.inr ?_,
      fun fd' he _ => ?_, fun fd' he => ?_⟩
    · rw [hreq]
      exact Bool.or_true _
    · rw [hreq] at hne
      exact Function.update_of_ne (fun he => hne (congrArg some he)) ..
    · rw [hreq] at he
      cases he
      exact hfree
    · rw [hnone] at he
      cases he
    · rw [hreq] at he
      cases he
      exact ⟨.connect a, Function.update_self .., Or.inr rfl⟩
  obtain ⟨hcore, hnear⟩ := hdials.core h ha
  exact ⟨hcore, hnear, hdials.dnsPending⟩

/-- While the resolver is waited for, the request goes nowhere. -/
theorem Near.wait {s₁ : AuthSt} (n : Near a s s₁) (h : Core s₁) (ha : s.Alive a)
    (hd : (s₁.request a).dnsPending = (s.request a).dnsPending)
    (hp : (s.request a).dnsPending = true) : Heard a s s₁ := by
  have hs := n.settle h ha (p := true) (iff_of_true rfl (Or.inl (hd.trans hp)))
  exact ⟨hs, hd⟩

theorem startAuthQuery_heard (h : Core s) (ha : s.Alive a)
    (hd : (s.request a).dnsPending = true) (hnone : (s.request a).fd = none)
    (hover : .identOver (s.request a).client ∉ s.log) (start : IdentStart) :
    Answers (Heard a s) (· = .notCalled) (startAuthQuery a start s) := by
  have hdoing : (s.request a).doingAuth = false := by
    rw [(h.own a ha).doing, hnone]
    rfl
  obtain ⟨hc, n⟩ := h.told ha .doId
  have ha₁ := (n.alive a).mpr ha
  cases start with
  | noSocket =>
      obtain ⟨hc, n⟩ := h.noted ha (Or.inr (Or.inl rfl)) nofun fun _ => hdoing
      exact n.wait hc ha rfl hd
  | tooHigh =>
      obtain ⟨hc, n⟩ := h.noted ha (Or.inr (Or.inl rfl)) nofun fun _ => hdoing
      exact n.wait hc ha rfl hd
  | blocking =>
      obtain ⟨hc₂, n₂⟩ := hc.noted ha₁ (Or.inr (Or.inl rfl)) nofun fun _ => hdoing
      exact (n.trans n₂).wait hc₂ ha rfl hd
  | socket fd res =>
      rw [startAuthQuery.eq_def]
      dsimp only
      split
      · rfl
      next hsome =>
        have hfree : s.fdTable fd = none := by
          cases hf : s.fdTable fd with
          | none => rfl
          | some hd => exact absurd (by rw [hf]; rfl) hsome
        obtain ⟨hc₂, n₂, hd₂⟩ := hc.opened ha₁ hnone hfree
          (fun hm => hover ((List.mem_cons.mp hm).resolve_left nofun))
        cases res with
        | none => exact (n.trans n₂).wait hc₂ ha hd₂ hd
        | some res =>
            have hwait : (openedSt a fd (sendheader (s.request a).client .doId s)).fdTable fd =
                some (.connect a) := Function.update_self ..
            obtain ⟨s', hcall, hs⟩ := commConnectCallback_heard hc₂ hwait res
            have hanswer : Answers (Heard a s) (· = .notCalled) (commConnectCallback fd res
                (openedSt a fd (sendheader (s.request a).client .doId s))) := by
              rw [hcall]
              exact (n.trans n₂).heard hd₂ hs
            exact hanswer

theorem startAuth_sound (h : Sound s) {c : Nat} (hc : ¬ s.started c = true) (timeofday : Int)
    (submitted : Bool) (start : IdentStart) :
    Answers Sound (· = .notCalled) (startAuth c timeofday submitted start s) := by
  have hstarts := askedSt_starts hc timeofday submitted
  have hcore := h.core.start hstarts
  have hlive := hstarts.alive h.core
  have ha := (hlive s.made).mpr (Or.inr rfl)
  have hself : (askedSt c timeofday submitted s).request s.made =
      ⟨c, false, false, true, none, timeofday + connectTimeout⟩ := Function.update_self ..
  have hover : .identOver ((askedSt c timeofday submitted s).request s.made).client ∉
      (askedSt c timeofday submitted s).log := by
    intro hm
    obtain ⟨a, hlt, hac⟩ := h.core.known _ ((List.mem_cons.mp hm).resolve_left nofun) _ rfl
    rw [hself] at hac
    exact hc (started_iff.mpr ⟨a, hlt, hac⟩)
  rw [startAuth_eq]
  refine (startAuthQuery_heard hcore ha (by rw [hself]) (by rw [hself]) hover start).map
    fun t ht => ?_
  have hpend : (t.request s.made).dnsPending = true := ht.dnsPending.trans (by rw [hself])
  obtain ⟨hpoll, hmade, hta⟩ := ht.waiting hpend
  have hlive' : ∀ b, Alive { t with pollList := s.made :: t.pollList } b ↔
      s.Alive b ∨ b = s.made := by
    intro b
    by_cases hb : b = s.made
    · rw [hb]
      exact iff_of_true hta (Or.inr rfl)
    · exact (ht.alive b hb).trans (hlive b)
  have hnot : s.made ∉ s.pollList := fun hm => Nat.lt_irrefl _ ((h.linked.mem _).mp hm).1
  refine ⟨?_, ⟨?_, fun b => ?_⟩, fun b hb => ?_⟩
  · have hc := ht.core
    exact ⟨fun b hb => ⟨(hc.own b hb).held, (hc.own b hb).dns, (hc.own b hb).ident,
      (hc.own b hb).query, (hc.own b hb).asked, (hc.own b hb).doing, (hc.own b hb).open_fd⟩,
      hc.freed_made, hc.freed_once, hc.released_once, hc.known, hc.inj, hc.gone, hc.timed,
      hc.asked, hc.canceled, hc.handler, hc.fd_inj⟩
  · dsimp only
    rw [hpoll]
    exact List.nodup_cons.mpr ⟨hnot, h.linked.nodup⟩
  · rw [hlive']
    dsimp only
    rw [hpoll, List.mem_cons, or_comm]
    exact or_congr_left (h.linked.mem b)
  · by_cases hbm : b = s.made
    · rw [hbm]
      exact Or.inl hpend
    · have hb' := ((hlive' b).mp hb).resolve_right hbm
      have hreq : t.request b = s.request b :=
        (ht.request b hbm).trans (Function.update_of_ne hbm ..)
      have hbusy := h.busy b hb'
      rw [Busy, ← hreq] at hbusy
      exact hbusy

/-! ## Runs -/

/-- What one step preserves. -/
theorem step_sound (h : Sound s) (op : AuthOp) :
    Answers Sound (· = .notCalled) (step s op) := by
  rw [step.eq_def]
  cases op with
  | startAuth c timeofday submitted start =>
      dsimp only
      split
      · rfl
      next hc => exact startAuth_sound h hc timeofday submitted start
  | dnsAnswer c answer =>
      dsimp only
      split
      · rfl
      next a hq =>
        obtain ⟨s', hcall, hs⟩ := dnsAnswer_settled h.core hq answer
        rw [hcall]
        exact hs.sound h
  | connectDone fd res =>
      dsimp only
      split
      next a hfd =>
        obtain ⟨s', hcall, hs⟩ := commConnectCallback_heard h.core hfd res
        rw [hcall]
        exact hs.sound h
      · rfl
  | readReady fd recv =>
      dsimp only
      split
      next a hfd =>
        obtain ⟨s', hcall, hs⟩ := readReady_heard h.core hfd recv
        rw [hcall]
        exact hs.sound h
      · rfl
  | timeoutEvent timeofday =>
      obtain ⟨s', hcall, hs⟩ := timeoutLoop_sound timeofday s.pollList h h.linked.nodup
        fun a ha => (h.linked.mem a).mp ha
      dsimp only
      rw [timeoutAuthQueriesEvent, hcall]
      exact hs
  | exitClient c =>
      dsimp only
      split
      next hc =>
        obtain ⟨s', hcall, hs⟩ := exitClient_sound h hc.1 hc.2
        rw [hcall]
        exact hs
      · rfl

theorem init_sound : Sound init := by
  have hnone : ∀ a, ¬ init.Alive a := fun a ha => Nat.not_lt_zero a ha.1
  refine ⟨⟨fun a ha => absurd ha (hnone a), fun _ => nofun, fun _ => Nat.zero_le _,
    fun _ => Nat.zero_le _, fun _ => nofun, fun a ha => absurd ha (Nat.not_lt_zero a),
    fun a ha => absurd ha (Nat.not_lt_zero a), fun _ => nofun, fun _ _ => nofun, fun _ => nofun,
    fun _ _ _ => nofun, fun a _ ha => absurd ha (hnone a)⟩, ⟨List.nodup_nil, fun a => ?_⟩,
    fun a ha => absurd ha (hnone a)⟩
  exact iff_of_false nofun (hnone a)

/-- Of each client that came: it is released once at most, and it is when the
resolver and the ident query are over, or its time, unless it exited; and its
request is freed once, when it is released or exits. -/
structure Done (s : AuthSt) : Prop where
  once : ∀ c, s.log.count (.released c) ≤ 1
  released : ∀ c, s.started c = true →
    (.answered c ∈ s.log ∨ .timedOut c ∈ s.log) → (.identOver c ∈ s.log ∨ .timedOut c ∈ s.log) →
    .exited c ∉ s.log → .released c ∈ s.log
  freed : ∀ a < s.made, s.log.count (.freed a) =
    if .released (s.request a).client ∈ s.log ∨ .exited (s.request a).client ∈ s.log
      then 1 else 0

theorem Sound.done (h : Sound s) : Done s := by
  refine ⟨h.core.released_once, fun c hc hdns hident hx => ?_, fun a ha => ?_⟩
  · obtain ⟨a, ha, rfl⟩ := started_iff.mp hc
    by_cases hf : .freed a ∈ s.log
    · exact (h.core.gone a ha hf).resolve_right hx
    rcases hdns with hdns | hdns
    · rcases hident with hident | hident
      · have ho := h.core.own a ⟨ha, hf⟩
        rcases h.busy a ⟨ha, hf⟩ with hb | hb
        · rw [ho.dns hdns] at hb
          cases hb
        · rw [ho.ident hident] at hb
          cases hb
      · exact h.core.timed _ hident
    · exact h.core.timed _ hdns
  · by_cases hf : .freed a ∈ s.log
    · rw [if_pos (h.core.gone a ha hf)]
      exact Nat.le_antisymm (h.core.freed_once a) (List.count_pos_iff.mpr hf)
    · have hheld := (h.core.own a ⟨ha, hf⟩).held
      rw [if_neg fun hg => hg.elim hheld.1 hheld.2]
      exact List.count_eq_zero.mpr hf

end AuthSt

/-- In every run each client is released once, its request is freed once, and
no callback is called for a request that has been freed. -/
theorem auth_done (ops : List AuthOp) :
    Answers AuthSt.Done (· = .notCalled) (run AuthSt.step .init ops) :=
  (run_answers (fun _ o h _ => AuthSt.step_sound h o) ops AuthSt.init_sound
    (Meets.of_forall (fun _ _ => trivial) ops)).imp (fun _ => AuthSt.Sound.done) fun _ => id

example : ((run AuthSt.step .init [.startAuth 1 0 true (.socket 5 none),
    .connectDone 5 (.connected .wouldBlock), .dnsAnswer 1 .found,
    .readReady 5 (.reply true)]).map fun s => s.log.take 2) =
      .ok [.released 1, .freed 0] := rfl

end TrIrcd
