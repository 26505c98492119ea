/-
The flat indices refine the per-site scan.  The active map is exact at every
point of the sweep, so the segments give each address the answer the scan
gives; the label index follows the same rule one listing at a time.
-/
import Ppv2Auth.Identity.Counts

namespace Ppv2Auth

namespace Identity

open Rust RefCount

/-- Nobody, the one claimant, or the quarantine. -/
def contest : List UInt16 → Option UInt16
  | [] => none
  | [id] => some id
  | _ => some siteContested

/-- Ask every site whether it claims something: no site, the single id of all
that do, or site 0 when two ids do. -/
def scan (sites : List Site) (claims : Site → Bool) : Option UInt16 :=
  contest ((sites.filter claims).map Site.id).dedup

theorem contest_perm {ids ids' : List UInt16} (h : ids.Perm ids') :
    contest ids = contest ids' := by
  match ids, ids', h.length_eq with
  | [], [], _ => rfl
  | [id], [id'], _ =>
      rw [List.singleton_perm_singleton.mp h]
  | _ :: _ :: _, _ :: _ :: _, _ => rfl

/-- Only which ids claim matters, not how often or in what order. -/
theorem contest_dedup_congr {ids ids' : List UInt16}
    (h : ∀ id, id ∈ ids ↔ id ∈ ids') : contest ids.dedup = contest ids'.dedup := by
  refine contest_perm ?_
  rw [List.perm_ext_iff_of_nodup (List.nodup_dedup _) (List.nodup_dedup _)]
  simpa using h

theorem contest_dedup_single {ids : List UInt16} {id : UInt16} (hmem : id ∈ ids)
    (hall : ∀ x ∈ ids, x = id) : contest ids.dedup = some id := by
  have hcongr : contest ids.dedup = contest [id].dedup := contest_dedup_congr fun x =>
    ⟨fun hx => by simp [hall x hx], fun hx => List.mem_singleton.mp hx ▸ hmem⟩
  simpa [contest] using hcongr

theorem contest_dedup_contested {ids : List UInt16} {x y : UInt16} (hx : x ∈ ids)
    (hy : y ∈ ids) (hne : x ≠ y) : contest ids.dedup = some siteContested := by
  rw [← List.mem_dedup] at hx hy
  match hids : ids.dedup with
  | [] => simp [hids] at hx
  | [id] =>
      simp only [hids, List.mem_singleton] at hx hy
      exact absurd (hx.trans hy.symm) hne
  | _ :: _ :: _ => rfl

theorem scan_perm {sites sites' : List Site} (h : sites.Perm sites')
    (claims : Site → Bool) : scan sites claims = scan sites' claims :=
  contest_perm ((h.filter claims).map Site.id).dedup

theorem applyEvent_getElem? (active : Active) (e : Event) :
    (fun id => (applyEvent active e)[id]?) =
      count Event.opens Event.id (fun id => active[id]?) e := by
  funext id
  unfold applyEvent count
  cases hopens : e.opens with
  | true =>
      by_cases hid : e.id = id
      · subst hid
        simp [Std.TreeMap.getD_eq_getD_getElem?]
      · simp [Std.TreeMap.getElem?_insert, hid, Ne.symm hid]
  | false =>
      simp only [Bool.false_eq_true, ↓reduceIte]
      cases hcount : active[e.id]? with
      | none => rfl
      | some c =>
          by_cases hid : e.id = id
          · subst hid
            by_cases hzero : c - 1 = 0 <;> simp [hzero]
          · by_cases hzero : c - 1 = 0 <;>
              simp [hzero, Std.TreeMap.getElem?_insert,
                Std.TreeMap.getElem?_erase, hid, Ne.symm hid]

theorem foldl_applyEvent_getElem? (events : List Event) (active : Active) :
    (fun id => (events.foldl applyEvent active)[id]?) =
      events.foldl (count Event.opens Event.id) fun id => active[id]? := by
  induction events generalizing active with
  | nil => rfl
  | cons e rest ih =>
      rw [List.foldl_cons, List.foldl_cons, ih, applyEvent_getElem?]

theorem foldl_applyEvent_empty (events : List Event) :
    (fun id => (events.foldl applyEvent ∅)[id]?) =
      events.foldl (count Event.opens Event.id) fun _ => none := by
  rw [foldl_applyEvent_getElem?]
  congr 1

/-- The counts every event finds before it. -/
def SafeCounts (sites : List Site) : Prop :=
  ∀ before e after, sortedEvents sites = before ++ e :: after →
    Safe Event.opens Event.id (fun id => (before.foldl applyEvent ∅)[id]?) e

/-- Any prefix of the events leaves the exact counts, if the counters do not
wrap along it. -/
theorem tracks_of_safeCounts {sites : List Site} (hsafe : SafeCounts sites)
    {pre post : List Event} (hsplit : sortedEvents sites = pre ++ post) :
    Tracks Event.opens Event.id (fun id => (pre.foldl applyEvent ∅)[id]?) pre := by
  rw [foldl_applyEvent_empty]
  refine tracks_foldl fun before e after hpre htracks => ?_
  have hevents : sortedEvents sites = before ++ e :: (after ++ post) := by
    simp [hsplit, hpre]
  refine ⟨fun hopens => ?_, dropped_lt_taken hevents⟩
  have hstep := hsafe before e (after ++ post) hevents
  rw [foldl_applyEvent_empty] at hstep
  have htake := hstep.take hopens
  have hcount := htracks.getD_toNat e.id
  omega

theorem tracks_of_covering {sites : List Site}
    (hcover : ∀ id a, covering sites id a < 2 ^ 32)
    {pre post : List Event} (hsplit : sortedEvents sites = pre ++ post) :
    Tracks Event.opens Event.id (fun id => (pre.foldl applyEvent ∅)[id]?) pre := by
  rw [foldl_applyEvent_empty]
  refine tracks_foldl fun before e after hpre _ => ?_
  have hevents : sortedEvents sites = before ++ e :: (after ++ post) := by
    simp [hsplit, hpre]
  refine ⟨fun hopens => ?_, dropped_lt_taken hevents⟩
  have htaken := taken_lt_covering hevents hopens
  have hbound := hcover e.id e.pos
  omega

/-- Between two positions the counts are the sites over the addresses
there. -/
theorem taken_eq_covering {sites : List Site} {pre post : List Event} {a : U128}
    (hsplit : sortedEvents sites = pre ++ post) (hpre : ∀ e ∈ pre, e.pos ≤ a)
    (hpost : ∀ e ∈ post, a < e.pos) (id : UInt16) :
    taken Event.opens Event.id id pre =
      dropped Event.opens Event.id id pre + covering sites id a := by
  have hcut : ∀ p : Event → Bool,
      (sortedEvents sites).countP (fun e => p e ∧ e.pos ≤ a) = pre.countP p := by
    intro p
    have hlater : post.countP (fun e => p e ∧ e.pos ≤ a) = 0 := by
      rw [List.countP_eq_zero]
      intro e he
      simp [hpost e he]
    rw [hsplit, List.countP_append, hlater, Nat.add_zero]
    refine List.countP_congr fun e he => ?_
    simp [hpre e he]
  have hopened := hcut fun e => e.opens ∧ e.id = id
  have hclosed := hcut fun e => ¬ e.opens ∧ e.id = id
  have hstarts := countP_opens sites id fun b => b ≤ a
  have hends := countP_closes sites id a
  have hcover := countP_started sites id a
  simp only [decide_eq_true_eq, and_assoc] at hopened hclosed hstarts
  rw [taken, dropped]
  omega

/-- Every address cuts the events into those up to it and those past it. -/
theorem sortedEvents_cut (sites : List Site) (a : U128) :
    ∃ pre post, sortedEvents sites = pre ++ post ∧ (∀ e ∈ pre, e.pos ≤ a) ∧
      ∀ e ∈ post, a < e.pos := by
  refine ⟨(sortedEvents sites).takeWhile fun e => e.pos ≤ a,
    (sortedEvents sites).dropWhile fun e => e.pos ≤ a,
    List.takeWhile_append_dropWhile.symm,
    fun e he => by simpa using List.mem_takeWhile_imp he, ?_⟩
  have hsorted := (sortedEvents_pairwise_pos sites).sublist
    (List.dropWhile_sublist fun e => e.pos ≤ a)
  cases hrest : (sortedEvents sites).dropWhile fun e => e.pos ≤ a with
  | nil => simp
  | cons first rest =>
      have hfirst : a < first.pos := by
        have := List.head_dropWhile_not (fun e : Event => e.pos ≤ a)
          (l := sortedEvents sites) (by simp [hrest])
        simpa [hrest] using this
      rw [hrest] at hsorted
      intro e he
      rcases List.mem_cons.mp he with rfl | hlater
      · exact hfirst
      · exact hfirst.trans_le ((List.pairwise_cons.mp hsorted).1 e hlater)

/-- No counter wraps exactly when no id has 2^32 sites over one address. -/
theorem safeCounts_iff (sites : List Site) :
    SafeCounts sites ↔ ∀ id a, covering sites id a < 2 ^ 32 := by
  constructor
  · intro hsafe id a
    obtain ⟨pre, post, hsplit, hpre, hpost⟩ := sortedEvents_cut sites a
    have hbounded := (tracks_of_safeCounts hsafe hsplit).bounded id
    have hcount := taken_eq_covering hsplit hpre hpost id
    omega
  · intro hcover before e after hsplit
    have htracks := tracks_of_covering hcover hsplit
    refine htracks.safe ⟨fun hopens => ?_, dropped_lt_taken hsplit⟩
    have htaken := taken_lt_covering hsplit hopens
    have hbound := hcover e.id e.pos
    omega

theorem claimant_eq_contest (active : Active) :
    claimant active = contest active.keys := by
  have hsize : active.keys.length = active.size := Std.TreeMap.length_keys
  unfold claimant contest
  rw [← hsize]
  match active.keys with
  | [] => rfl
  | [id] => rfl
  | _ :: _ :: _ => rfl

theorem claimant_eq_scan {active : Active} {sites : List Site}
    {claims : Site → Bool}
    (hactive : ∀ id, active[id]? ≠ none ↔ ∃ s ∈ sites, claims s ∧ s.id = id) :
    claimant active = scan sites claims := by
  rw [claimant_eq_contest]
  refine contest_perm ?_
  rw [List.perm_ext_iff_of_nodup Std.TreeMap.nodup_keys (List.nodup_dedup _)]
  intro id
  have hkey : id ∈ active.keys ↔ active[id]? ≠ none := by
    rw [Std.TreeMap.mem_keys, Std.TreeMap.mem_iff_isSome_getElem?,
      Option.isSome_iff_ne_none]
  rw [hkey, hactive]
  simp [and_assoc]

/-- Between two positions the sweep's claimant is the scan's answer. -/
theorem claimant_between {sites : List Site}
    (hcover : ∀ id a, covering sites id a < 2 ^ 32) (pre post : List Event)
    (a : U128) (hsplit : sortedEvents sites = pre ++ post)
    (hpre : ∀ e ∈ pre, e.pos ≤ a) (hpost : ∀ e ∈ post, a < e.pos) :
    claimant (pre.foldl applyEvent ∅) =
      scan sites (fun s => s.cidrs.contains a) := by
  refine claimant_eq_scan fun id => ?_
  have hcount := taken_eq_covering hsplit hpre hpost id
  have hpositive : 0 < covering sites id a ↔
      ∃ s ∈ sites, s.cidrs.contains a = true ∧ s.id = id := by
    simp [covering, List.countP_pos_iff, and_comm]
  have hexact := (tracks_of_covering hcover hsplit).exact id
  rw [← hpositive, hexact]
  split
  · next heq =>
      simp only [ne_eq, not_true_eq_false, false_iff]
      omega
  · next hne =>
      simp only [ne_eq, reduceCtorEq, not_false_eq_true, true_iff]
      omega

theorem foldl_advance_active (done : List (U128 × List Event)) (s : Sweep) :
    (done.foldl Sweep.advance s).active =
      (done.flatMap Prod.snd).foldl applyEvent s.active := by
  induction done generalizing s with
  | nil => rfl
  | cons batch rest ih =>
      rw [List.foldl_cons, ih, List.flatMap_cons, List.foldl_append]
      rfl

/-- What the sweep knows: the owner of every address behind the position, and
that the current claimant owns everything up to the next one. -/
structure Sweep.Settled (owner : U128 → Option UInt16) (s : Sweep)
    (todo : List (U128 × List Event)) : Prop where
  shaped : s.Shaped
  past : ∀ id a, a < s.curStart →
    (OwnedBy s.segments id a ↔ owner a = some id)
  present : ∀ a, s.curStart ≤ a → (∀ batch ∈ todo, a < batch.1) →
    owner a = s.curId

theorem ownedBy_append {segments : List Segment} {seg : Segment} {id : UInt16}
    {a : U128} : OwnedBy (segments ++ [seg]) id a ↔
      OwnedBy segments id a ∨ ((seg.start ≤ a ∧ a ≤ seg.stop) ∧ seg.id = id) := by
  simp [OwnedBy, or_and_right, exists_or]

theorem Sweep.Shaped.not_owned {s : Sweep} (h : s.Shaped) (id : UInt16)
    {a : U128} (ha : s.curStart ≤ a) : ¬ OwnedBy s.segments id a := by
  rintro ⟨seg, hseg, ⟨-, hstop⟩, -⟩
  exact absurd (hstop.trans_lt (h.behind seg hseg)) (not_lt.mpr ha)

/-- What the sweep has, with the current stretch closed at its last address. -/
theorem Sweep.Settled.close {owner : U128 → Option UInt16} {s : Sweep}
    {todo : List (U128 × List Event)} (h : s.Settled owner todo) (id : UInt16)
    {stop a : U128} (hstop : a ≤ stop)
    (hpresent : s.curStart ≤ a → owner a = s.curId) :
    OwnedBy s.segments id a ∨
        (s.curStart ≤ a ∧ a ≤ stop ∧ s.curId = some id) ↔ owner a = some id := by
  rcases lt_or_ge a s.curStart with hbehind | hstart
  · rw [← h.past id a hbehind]
    simp [not_le.mpr hbehind]
  · simp [h.shaped.not_owned id hstart, hstart, hstop, hpresent hstart]

/-- Cutting at the next position settles everything before it. -/
theorem Sweep.Settled.emit {owner : U128 → Option UInt16} {s : Sweep}
    {pos : U128} {events : List Event} {todo : List (U128 × List Event)}
    (h : s.Settled owner ((pos, events) :: todo))
    (hlater : ∀ batch ∈ todo, pos < batch.1) (id : UInt16) {a : U128}
    (ha : a < pos) : OwnedBy (s.emit pos) id a ↔ owner a = some id := by
  have hpresent : s.curStart ≤ a → owner a = s.curId := fun hstart =>
    h.present a hstart fun batch hbatch => by
      rcases List.mem_cons.mp hbatch with rfl | hmem
      · exact ha
      · exact ha.trans (hlater batch hmem)
  have hcut : a ≤ pos - 1 := (le_sub_one_iff ha).mpr ha
  rw [← h.close id hcut hpresent, Sweep.emit]
  cases s.curId with
  | none => simp
  | some cur =>
      by_cases hgap : pos > s.curStart
      · simp [hgap, ownedBy_append, and_assoc]
      · have hbehind : ¬ s.curStart ≤ a := fun hstart => hgap (hstart.trans_lt ha)
        simp [hgap, hbehind]

/-- One round of the sweep: the claimant behind the new position has to own
what lies before the next one. -/
theorem Sweep.Settled.advance {owner : U128 → Option UInt16} {s : Sweep}
    {batch : U128 × List Event} {todo : List (U128 × List Event)}
    (h : s.Settled owner (batch :: todo)) (hpos : s.curStart ≤ batch.1)
    (hlater : ∀ b ∈ todo, batch.1 < b.1)
    (hclaimant : ∀ a, batch.1 ≤ a → (∀ b ∈ todo, a < b.1) →
      claimant (batch.2.foldl applyEvent s.active) = owner a) :
    (s.advance batch).Settled owner todo where
  shaped := Sweep.advance_shaped h.shaped hpos
  past id _ ha := h.emit hlater id ha
  present a ha hbefore := (hclaimant a ha hbefore).symm

theorem Sweep.Settled.finish {owner : U128 → Option UInt16} {s : Sweep}
    (h : s.Settled owner []) (id : UInt16) (a : U128) :
    OwnedBy s.finish id a ↔ owner a = some id := by
  have hpresent : s.curStart ≤ a → owner a = s.curId := fun hstart =>
    h.present a hstart (by simp)
  rw [← h.close id (le_allOnes a) hpresent, Sweep.finish]
  cases s.curId with
  | none => simp
  | some cur => simp [ownedBy_append, and_assoc]

/-- The claimant after each prefix of the batches owns what lies before the
next one. -/
def OwnsBetween (owner : U128 → Option UInt16) (bs : List (U128 × List Event)) : Prop :=
  ∀ done todo a, bs = done ++ todo → (∀ b ∈ done, b.1 ≤ a) → (∀ b ∈ todo, a < b.1) →
    claimant ((done.flatMap Prod.snd).foldl applyEvent ∅) = owner a

/-- Prefixes of the batches are prefixes of the events. -/
theorem ownsBetween_batches {events : List Event} {owner : U128 → Option UInt16}
    (howner : ∀ pre post a, events = pre ++ post → (∀ e ∈ pre, e.pos ≤ a) →
      (∀ e ∈ post, a < e.pos) →
      claimant (pre.foldl applyEvent ∅) = owner a) :
    OwnsBetween owner (Batches.batches Event.pos events) := by
  have hflat := Batches.flatMap_batches Event.pos events
  have hpos : ∀ bs : List (U128 × List Event),
      (∀ b ∈ bs, b ∈ Batches.batches Event.pos events) →
      ∀ e ∈ bs.flatMap Prod.snd, ∃ b ∈ bs, e.pos = b.1 := by
    intro bs hbs e he
    obtain ⟨b, hb, hmem⟩ := List.mem_flatMap.mp he
    exact ⟨b, hb, Batches.mem_batches_key (hbs b hb) e hmem⟩
  intro done todo a hsplit hdone htodo
  apply howner _ (todo.flatMap Prod.snd) a
  · rw [← List.flatMap_append, ← hsplit, hflat]
  · intro e he
    obtain ⟨b, hb, hkey⟩ := hpos done (by simp +contextual [hsplit]) e he
    exact hkey ▸ hdone b hb
  · intro e he
    obtain ⟨b, hb, hkey⟩ := hpos todo (by simp +contextual [hsplit]) e he
    exact hkey ▸ htodo b hb

/-- The position after some batches is not past the next one. -/
theorem curStart_le {done : List (U128 × List Event)} {pos : U128}
    (hdone : ∀ b ∈ done, b.1 < pos) :
    (done.foldl Sweep.advance Sweep.start).curStart ≤ pos := by
  rcases List.eq_nil_or_concat done with rfl | ⟨front, last, rfl⟩
  · simp [Sweep.start, BitVec.le_def]
  · simpa [Sweep.advance] using (hdone last (by simp)).le

/-- The rounds to come settle all that is left. -/
theorem settled_foldl {owner : U128 → Option UInt16} {bs : List (U128 × List Event)}
    (hsorted : bs.Pairwise fun b c => b.1 < c.1) (howns : OwnsBetween owner bs)
    {done todo : List (U128 × List Event)} (hsplit : bs = done ++ todo)
    (hsettled : (done.foldl Sweep.advance Sweep.start).Settled owner todo) :
    (bs.foldl Sweep.advance Sweep.start).Settled owner [] := by
  induction todo generalizing done with
  | nil =>
      rw [hsplit, List.append_nil]
      exact hsettled
  | cons batch todo ih =>
      have horder := hsorted
      rw [hsplit] at horder
      obtain ⟨-, htail, hcross⟩ := List.pairwise_append.mp horder
      have hdone : ∀ b ∈ done, b.1 < batch.1 := fun b hb =>
        hcross b hb batch List.mem_cons_self
      have hsplit' : bs = (done ++ [batch]) ++ todo := by simp [hsplit]
      have hstep := hsettled.advance (curStart_le hdone) (List.pairwise_cons.mp htail).1
        fun a ha hbefore => by
          have hearlier : ∀ b ∈ done ++ [batch], b.1 ≤ a := by
            intro b hb
            rcases List.mem_append.mp hb with hold | hself
            · exact ((hdone b hold).trans_le ha).le
            · exact List.mem_singleton.mp hself ▸ ha
          rw [foldl_advance_active, ← List.foldl_append]
          simpa [Sweep.start] using howns (done ++ [batch]) todo a hsplit' hearlier hbefore
      exact ih hsplit' (by simpa using hstep)

/-- The segments a sweep returns are the owners, as long as the claimant after
each prefix of the events owns what lies before the next event. -/
theorem sweep_owned {events : List Event} {owner : U128 → Option UInt16}
    (hsorted : events.Pairwise fun e f => e.pos ≤ f.pos)
    (howner : ∀ pre post a, events = pre ++ post → (∀ e ∈ pre, e.pos ≤ a) →
      (∀ e ∈ post, a < e.pos) →
      claimant (pre.foldl applyEvent ∅) = owner a) (id : UInt16) (a : U128) :
    OwnedBy (sweep events) id a ↔ owner a = some id := by
  have howns := ownsBetween_batches howner
  have hstart : Sweep.start.Settled owner (Batches.batches Event.pos events) := by
    refine ⟨Sweep.start_shaped, fun id a ha => ?_, fun a _ hnext => ?_⟩
    · simp [Sweep.start, BitVec.lt_def] at ha
    · exact (howns [] _ a rfl (by simp) hnext).symm
  have hbatches := Batches.batches_pairwise_lt hsorted
  exact (settled_foldl hbatches howns (List.nil_append _).symm hstart).finish id a

/-- What one more listing makes of an answer. -/
def relist (answer : Option UInt16) (id : UInt16) : Option UInt16 :=
  match answer with
  | none => some id
  | some owner =>
      if owner ≠ id ∧ owner ≠ siteContested then some siteContested
      else some owner

theorem listLabel_getElem? (index : Std.TreeMap Bytes UInt16) (id : UInt16)
    (listed label : Bytes) :
    (listLabel index id listed)[label]? =
      if listed = label then relist index[label]? id else index[label]? := by
  unfold listLabel relist
  by_cases heq : listed = label
  · subst heq
    cases howner : index[listed]? with
    | none => simp
    | some owner =>
        by_cases hcontest : owner ≠ id ∧ owner ≠ siteContested
        · simp [hcontest]
        · simp [hcontest, howner]
  · rw [if_neg heq]
    cases howner : index[listed]? with
    | none => simp [Std.TreeMap.getElem?_insert, heq]
    | some owner =>
        by_cases hcontest : owner ≠ id ∧ owner ≠ siteContested
        · simp [hcontest, Std.TreeMap.getElem?_insert, heq]
        · simp [hcontest]

/-- Relisting follows the scan's rule, also past the quarantine id itself. -/
theorem contest_concat (ids : List UInt16) (id : UInt16) :
    contest (ids ++ [id]).dedup = relist (contest ids.dedup) id := by
  rcases ids with _ | ⟨first, rest⟩
  · rfl
  · by_cases hall : ∀ x ∈ rest, x = first
    · have hold : contest (first :: rest).dedup = some first :=
        contest_dedup_single List.mem_cons_self (by simpa using hall)
      rw [hold]
      by_cases hid : first = id
      · subst hid
        have hsame : contest (first :: rest ++ [first]).dedup = some first :=
          contest_dedup_single (by simp) (by simpa [or_imp, forall_and] using hall)
        rw [hsame]
        simp [relist]
      · rw [contest_dedup_contested (x := first) (y := id) (by simp) (by simp) hid]
        by_cases hzero : first = siteContested <;> simp [relist, hid, hzero]
    · push Not at hall
      obtain ⟨x, hx, hne⟩ := hall
      have hold : contest (first :: rest).dedup = some siteContested :=
        contest_dedup_contested List.mem_cons_self (by simp [hx]) hne.symm
      have hnew : contest (first :: rest ++ [id]).dedup = some siteContested :=
        contest_dedup_contested List.mem_cons_self (by simp [hx]) hne.symm
      rw [hold, hnew]
      simp [relist]

theorem foldl_listLabel_getElem? (listings : List (UInt16 × Bytes))
    (label : Bytes) :
    (listings.foldl (fun index p => listLabel index p.1 p.2) ∅)[label]? =
      contest ((listings.filter (·.2 = label)).map Prod.fst).dedup := by
  induction listings using List.reverseRecOn with
  | nil => simp [contest]
  | append_singleton before p ih =>
      rw [List.foldl_append, List.foldl_cons, List.foldl_nil, listLabel_getElem?,
        ih, List.filter_append, List.map_append]
      by_cases heq : p.2 = label
      · simp [heq, contest_concat]
      · simp [heq]

/-- The label index answers what the scan answers. -/
theorem labelIndex_eq_scan (sites : List Site) (label : Bytes) :
    (labelIndex sites)[label]? = scan sites (fun s => label ∈ s.vpce) := by
  have hfold : labelIndex sites =
      (sites.flatMap fun s => s.vpce.map fun v => (s.id, v)).foldl
        (fun index p => listLabel index p.1 p.2) ∅ := by
    simp [labelIndex, List.foldl_flatMap, List.foldl_map]
  rw [hfold, foldl_listLabel_getElem?]
  refine contest_dedup_congr fun id => ?_
  simp only [List.mem_map, List.mem_filter, List.mem_flatMap, decide_eq_true_eq]
  constructor
  · rintro ⟨p, ⟨⟨s, hs, v, hv, rfl⟩, hlabel⟩, rfl⟩
    exact ⟨s, ⟨hs, hlabel ▸ hv⟩, rfl⟩
  · rintro ⟨s, ⟨hs, hlabel⟩, rfl⟩
    exact ⟨(s.id, label), ⟨⟨s, hs, label, hlabel, rfl⟩, rfl⟩, rfl⟩

/-- No arithmetic of the sweep leaves its type: closing after a range's end,
cutting before a position, and the reference counts. -/
structure SweepSafe (sites : List Site) : Prop where
  closes : ∀ site ∈ sites, ∀ r ∈ site.cidrs.ranges,
    r.stop < BitVec.allOnes 128 → (r.stop + 1).toNat = r.stop.toNat + 1
  cuts : ∀ done batch todo,
    Batches.batches Event.pos (sortedEvents sites) = done ++ batch :: todo →
    batch.1 > (done.foldl Sweep.advance Sweep.start).curStart →
    (batch.1 - 1).toNat + 1 = batch.1.toNat
  counts : SafeCounts sites

theorem sweepSafe_iff (sites : List Site) :
    SweepSafe sites ↔ ∀ id a, covering sites id a < 2 ^ 32 := by
  rw [← safeCounts_iff]
  refine ⟨SweepSafe.counts, fun hcounts => ⟨?_, ?_, hcounts⟩⟩
  · exact fun _ _ r _ => stop_add_one_toNat
  · intro done batch todo _ hgap
    bv_omega

/-- Whatever the counts are, an address is the claimant's of the events up to
it. -/
theorem addrSite_eq_claimant {pfx : Prefix} {sites : List Site} {a : U128}
    {pre post : List Event}
    (hsplit : sortedEvents (Scheme.new pfx sites).sites = pre ++ post)
    (hpre : ∀ e ∈ pre, e.pos ≤ a) (hpost : ∀ e ∈ post, a < e.pos) :
    (Scheme.new pfx sites).addrSite a = claimant (pre.foldl applyEvent ∅) := by
  have hcut : ∀ pre post a,
      sortedEvents (Scheme.new pfx sites).sites = pre ++ post →
      (∀ e ∈ pre, e.pos ≤ a) → (∀ e ∈ post, a < e.pos) →
      (sortedEvents (Scheme.new pfx sites).sites).filter (fun e => e.pos ≤ a) = pre := by
    intro pre post a hsplit hpre hpost
    have hkeep : pre.filter (fun e => e.pos ≤ a) = pre := by
      simpa [List.filter_eq_self] using hpre
    have hdrop : post.filter (fun e => e.pos ≤ a) = [] := by
      simpa [List.filter_eq_nil_iff] using hpost
    rw [hsplit, List.filter_append, hkeep, hdrop, List.append_nil]
  have hsorted := sortedEvents_pairwise_pos (Scheme.new pfx sites).sites
  have hclaimant : ∀ pre post a,
      sortedEvents (Scheme.new pfx sites).sites = pre ++ post →
      (∀ e ∈ pre, e.pos ≤ a) → (∀ e ∈ post, a < e.pos) →
      claimant (pre.foldl applyEvent ∅) = claimant
        (((sortedEvents (Scheme.new pfx sites).sites).filter
          fun e => e.pos ≤ a).foldl applyEvent ∅) := by
    intro pre post a hsplit hpre hpost
    rw [hcut pre post a hsplit hpre hpost]
  have howned := sweep_owned hsorted hclaimant
  apply Option.ext
  intro id
  rw [Scheme.addrSite_eq_some_iff, ← hcut pre post a hsplit hpre hpost, ← howned id a]
  exact mergeSegments_owned (sweep_ordered hsorted) id a

theorem new_sites_perm (pfx : Prefix) (sites : List Site) :
    (Scheme.new pfx sites).sites.Perm sites :=
  List.perm_insertionSort _ _

theorem addrSite_eq_scan {pfx : Prefix} {sites : List Site}
    (hcover : ∀ id a, covering sites id a < 2 ^ 32) (a : U128) :
    (Scheme.new pfx sites).addrSite a =
      scan sites (fun s => s.cidrs.contains a) := by
  have hperm := new_sites_perm pfx sites
  have hcover' : ∀ id a, covering (Scheme.new pfx sites).sites id a < 2 ^ 32 :=
    fun id a => by
      rw [covering_perm hperm]
      exact hcover id a
  obtain ⟨pre, post, hsplit, hpre, hpost⟩ :=
    sortedEvents_cut (Scheme.new pfx sites).sites a
  rw [addrSite_eq_claimant hsplit hpre hpost, ← scan_perm hperm]
  exact claimant_between hcover' pre post a hsplit hpre hpost

theorem labelSite_eq_scan (pfx : Prefix) (sites : List Site) (label : Bytes) :
    (Scheme.new pfx sites).labelSite label = scan sites (fun s => label ∈ s.vpce) := by
  rw [← scan_perm (new_sites_perm pfx sites)]
  exact labelIndex_eq_scan _ label

/-- The flat indices refine the per-site scan, for every list of sites in
which no id has 2^32 sites over one address. -/
theorem Scheme.new_refines_scan (pfx : Prefix) (sites : List Site)
    (hcover : ∀ id a, covering sites id a < 2 ^ 32) :
    (∀ a, (Scheme.new pfx sites).addrSite a =
        scan sites (fun s => s.cidrs.contains a)) ∧
      (∀ label, (Scheme.new pfx sites).labelSite label =
        scan sites (fun s => label ∈ s.vpce)) ∧
      Intervals.Ordered Segment.start Segment.stop
        (Scheme.new pfx sites).segments ∧
      SweepSafe (Scheme.new pfx sites).sites := by
  refine ⟨addrSite_eq_scan hcover, labelSite_eq_scan pfx sites,
    (Scheme.new pfx sites).ordered, ?_⟩
  rw [sweepSafe_iff]
  intro id a
  rw [covering_perm (new_sites_perm pfx sites)]
  exact hcover id a

namespace RefinementWitness

def onePoint : Site where
  id := 1
  vpce := []
  cidrs := Cidr.Set.ofRanges [⟨0, 0, le_rfl⟩]

def pfx : Prefix := ⟨[0xfd, 0x0b, 0x10, 0x03, 0x5e, 0xc0], rfl⟩

theorem covering_replicate (n : Nat) :
    covering (List.replicate n onePoint) 1 0 = n := by
  have hcontains : decide (onePoint.id = 1 ∧ onePoint.cidrs.contains 0 = true) =
      true := by decide
  rw [covering, List.countP_replicate, if_pos hcontains]

/-- One site twice over one address is one owner. -/
theorem new_refines_scan_onePoint :
    (Scheme.new pfx [onePoint, onePoint]).addrSite 0 = some 1 := by
  have hrefines := Scheme.new_refines_scan pfx [onePoint, onePoint] fun id a =>
    lt_of_le_of_lt List.countP_le_length (by decide)
  rw [hrefines.1 0]
  decide

theorem not_sweepSafe_replicate {n : Nat} (hn : 2 ^ 32 ≤ n) :
    ¬ SweepSafe (Scheme.new pfx (List.replicate n onePoint)).sites := by
  rw [sweepSafe_iff]
  intro hcover
  have hbound := hcover 1 0
  rw [covering_perm (new_sites_perm pfx _), covering_replicate] at hbound
  omega

/-- With 2^32 sites of one id over one address a reference count wraps. -/
theorem sweep_wraps :
    ¬ SweepSafe (Scheme.new pfx (List.replicate (2 ^ 32) onePoint)).sites :=
  not_sweepSafe_replicate le_rfl

end RefinementWitness

end Identity

end Ppv2Auth
