/-
What the active map holds at every point of the sweep.  Sorted events put the
close of a range after its open and, at one position, closes before opens, so
between two positions an id's count is the number of its sites whose ranges
contain the addresses there.
-/
import Ppv2Auth.Identity.Scheme
import Ppv2Auth.Support.RefCount

namespace Ppv2Auth

namespace Identity

open Rust RefCount

/-- How many sites of one id contain an address. -/
def covering (sites : List Site) (id : UInt16) (a : U128) : Nat :=
  sites.countP fun s => s.id = id ∧ s.cidrs.contains a

theorem covering_perm {sites sites' : List Site} (h : sites.Perm sites')
    (id : UInt16) (a : U128) : covering sites id a = covering sites' id a :=
  h.countP_eq _

/-- The ranges of all sites, each with the id it counts for. -/
def siteRanges (sites : List Site) : List (UInt16 × Cidr.Range) :=
  sites.flatMap fun s => s.cidrs.ranges.map fun r => (s.id, r)

theorem flatMap_siteEvents (sites : List Site) :
    sites.flatMap siteEvents =
      (siteRanges sites).flatMap fun p => rangeEvents p.1 p.2 := by
  simp only [siteRanges, List.flatMap_assoc, List.flatMap_map]
  rfl

theorem countP_flatMap_of {α β : Type} {f : α → List β} {p : β → Bool}
    {q : α → Bool} (hf : ∀ x, (f x).countP p = if q x then 1 else 0)
    (items : List α) : (items.flatMap f).countP p = items.countP q := by
  induction items with
  | nil => rfl
  | cons x rest ih =>
      rw [List.flatMap_cons, List.countP_append, hf, ih, List.countP_cons,
        Nat.add_comm]

/-- Opens are counted by where ranges start. -/
theorem countP_opens (sites : List Site) (id : UInt16) (q : U128 → Bool) :
    (sortedEvents sites).countP (fun e => e.opens ∧ e.id = id ∧ q e.pos) =
      (siteRanges sites).countP fun p => p.1 = id ∧ q p.2.start := by
  rw [(sortedEvents_perm sites).countP_eq, flatMap_siteEvents]
  refine countP_flatMap_of (fun p => ?_) _
  unfold rangeEvents
  split <;> simp [List.countP_cons]

theorem stop_add_one_toNat {stop : U128} (h : stop < BitVec.allOnes 128) :
    (stop + 1).toNat = stop.toNat + 1 := by
  bv_omega

/-- Closes are counted by where ranges end. -/
theorem countP_closes (sites : List Site) (id : UInt16) (a : U128) :
    (sortedEvents sites).countP (fun e => ¬ e.opens ∧ e.id = id ∧ e.pos ≤ a) =
      (siteRanges sites).countP fun p => p.1 = id ∧ p.2.stop < a := by
  rw [(sortedEvents_perm sites).countP_eq, flatMap_siteEvents]
  refine countP_flatMap_of (fun p => ?_) _
  unfold rangeEvents
  split
  · next hcloses =>
      have hiff : p.2.stop + 1#128 ≤ a ↔ p.2.stop < a := by
        have := stop_add_one_toNat hcloses
        bv_omega
      simp [List.countP_cons, hiff]
  · next htop =>
      have hnever : ¬ p.2.stop < a :=
        not_lt.mpr ((le_allOnes a).trans (not_lt.mp htop))
      simp [hnever]

/-- A site has at most one range over an address. -/
theorem countP_covering (sites : List Site) (id : UInt16) (a : U128) :
    (siteRanges sites).countP
        (fun p => p.1 = id ∧ p.2.start ≤ a ∧ a ≤ p.2.stop) =
      covering sites id a := by
  refine countP_flatMap_of (fun s => ?_) _
  have hcovered : s.cidrs.contains a = true ↔
      Intervals.Covered Cidr.Range.start Cidr.Range.stop s.cidrs.ranges a :=
    s.cidrs.contains_iff_covered a
  have hcount := s.cidrs.ordered.countP_covering a
  rw [List.countP_map]
  by_cases hid : s.id = id
  · simpa [Function.comp_def, hid, hcovered] using hcount
  · simp [Function.comp_def, hid]

/-- Ranges started by an address still cover it or ended before it. -/
theorem countP_started (sites : List Site) (id : UInt16) (a : U128) :
    (siteRanges sites).countP (fun p => p.1 = id ∧ p.2.start ≤ a) =
      covering sites id a +
        (siteRanges sites).countP fun p => p.1 = id ∧ p.2.stop < a := by
  have hne : ∀ p ∈ siteRanges sites, p.2.start ≤ p.2.stop :=
    fun p _ => p.2.start_le_stop
  have hsplit := Intervals.countP_started hne (fun p => p.1 = id) a
  rw [← countP_covering]
  simpa [and_assoc] using hsplit

section Splits

variable {sites : List Site} {before after : List Event} {e : Event}

theorem key_le_of_mem_before (hsplit : sortedEvents sites = before ++ e :: after) :
    ∀ f ∈ before ++ [e], f.key ≤ e.key := by
  have hsorted := sortedEvents_pairwise_key sites
  rw [hsplit] at hsorted
  intro f hf
  rcases List.mem_append.mp hf with hbefore | hself
  · exact (List.pairwise_append.mp hsorted).2.2 f hbefore e List.mem_cons_self
  · exact (List.mem_singleton.mp hself ▸ le_rfl)

theorem key_ge_of_mem_after (hsplit : sortedEvents sites = before ++ e :: after) :
    ∀ f ∈ e :: after, e.key ≤ f.key := by
  have hsorted := sortedEvents_pairwise_key sites
  rw [hsplit] at hsorted
  have htail := (List.pairwise_append.mp hsorted).2.1
  intro f hf
  rcases List.mem_cons.mp hf with rfl | hafter
  · exact le_rfl
  · exact (List.pairwise_cons.mp htail).1 f hafter

/-- Up to and with the event, no more than what lies at or before its
position. -/
theorem countP_through_le (hsplit : sortedEvents sites = before ++ e :: after)
    (p : Event → Bool) :
    (before ++ [e]).countP p ≤
      (sortedEvents sites).countP fun f => p f ∧ f.pos ≤ e.pos := by
  have hcongr : (before ++ [e]).countP p =
      (before ++ [e]).countP fun f => p f ∧ f.pos ≤ e.pos := by
    refine List.countP_congr fun f hf => ?_
    have hpos := Event.pos_le_of_key_le (key_le_of_mem_before hsplit f hf)
    simp [hpos]
  have hsub : (before ++ [e]).Sublist (sortedEvents sites) := by
    rw [hsplit]
    exact (List.Sublist.refl before).append (by simp)
  rw [hcongr]
  exact hsub.countP_le

/-- What cannot lie at the event or after it lies before it. -/
theorem countP_before_ge (hsplit : sortedEvents sites = before ++ e :: after)
    {p : Event → Bool} (hp : ∀ f, p f → f.key < e.key) :
    (sortedEvents sites).countP p ≤ before.countP p := by
  have hnone : (e :: after).countP p = 0 := by
    rw [List.countP_eq_zero]
    intro f hf hpf
    exact absurd (hp f hpf) (not_lt.mpr (key_ge_of_mem_after hsplit f hf))
  rw [hsplit, List.countP_append, hnone, Nat.add_zero]

theorem Event.key_lt_of_pos_lt {f e : Event} (h : f.pos < e.pos) :
    f.key < e.key :=
  Prod.Lex.lt_iff.mpr (Or.inl h)

/-- At one position a close comes before an open. -/
theorem Event.key_lt_of_close_open {f e : Event} (hpos : f.pos ≤ e.pos)
    (hf : f.opens = false) (he : e.opens = true) : f.key < e.key := by
  rcases hpos.lt_or_eq with hlt | heq
  · exact Event.key_lt_of_pos_lt hlt
  · refine Prod.Lex.lt_iff.mpr (Or.inr ⟨heq, Prod.Lex.lt_iff.mpr (Or.inl ?_)⟩)
    show f.opens < e.opens
    rw [hf, he]
    decide

/-- A closing range opened earlier. -/
theorem dropped_lt_taken (hsplit : sortedEvents sites = before ++ e :: after)
    (hcloses : ¬ e.opens) :
    dropped Event.opens Event.id e.id before <
      taken Event.opens Event.id e.id before := by
  have hthrough := countP_through_le hsplit
    fun f => ¬ f.opens ∧ f.id = e.id
  have hended := countP_closes sites e.id e.pos
  have hmono : (siteRanges sites).countP
        (fun p => p.1 = e.id ∧ p.2.stop < e.pos) ≤
      (siteRanges sites).countP fun p => p.1 = e.id ∧ p.2.start < e.pos := by
    refine List.countP_mono_left fun p _ hp => ?_
    simp only [decide_eq_true_eq] at hp ⊢
    exact ⟨hp.1, p.2.start_le_stop.trans_lt hp.2⟩
  have hstarted := countP_opens sites e.id fun a => a < e.pos
  have hbefore := countP_before_ge hsplit
    (p := fun f => f.opens ∧ f.id = e.id ∧ f.pos < e.pos)
    fun f hf => by
      simp only [decide_eq_true_eq] at hf
      exact Event.key_lt_of_pos_lt hf.2.2
  have htaken : before.countP (fun f => f.opens ∧ f.id = e.id ∧ f.pos < e.pos) ≤
      taken Event.opens Event.id e.id before := by
    refine List.countP_mono_left fun f _ hf => ?_
    simp only [decide_eq_true_eq] at hf ⊢
    exact ⟨hf.1, hf.2.1⟩
  have hself : dropped Event.opens Event.id e.id (before ++ [e]) = _ :=
    dropped_concat e.id before e
  rw [if_pos ⟨hcloses, rfl⟩] at hself
  simp only [decide_eq_true_eq, and_assoc] at hthrough hstarted
  rw [← dropped, hself] at hthrough
  omega

/-- After an open, an id's count is at most the number of its sites over the
position. -/
theorem taken_lt_covering (hsplit : sortedEvents sites = before ++ e :: after)
    (hopens : e.opens = true) :
    taken Event.opens Event.id e.id before + 1 ≤
      dropped Event.opens Event.id e.id before + covering sites e.id e.pos := by
  have hthrough := countP_through_le hsplit fun f => f.opens ∧ f.id = e.id
  have hstarted := countP_opens sites e.id fun a => a ≤ e.pos
  have hcover := countP_started sites e.id e.pos
  have hended := countP_closes sites e.id e.pos
  have hbefore := countP_before_ge hsplit
    (p := fun f => ¬ f.opens ∧ f.id = e.id ∧ f.pos ≤ e.pos)
    fun f hf => by
      simp only [decide_eq_true_eq] at hf
      exact Event.key_lt_of_close_open hf.2.2 (by simpa using hf.1) hopens
  have hdropped : before.countP
        (fun f => ¬ f.opens ∧ f.id = e.id ∧ f.pos ≤ e.pos) ≤
      dropped Event.opens Event.id e.id before := by
    refine List.countP_mono_left fun f _ hf => ?_
    simp only [decide_eq_true_eq] at hf ⊢
    exact ⟨hf.1, hf.2.1⟩
  have hself : taken Event.opens Event.id e.id (before ++ [e]) = _ :=
    taken_concat e.id before e
  rw [if_pos ⟨hopens, rfl⟩] at hself
  simp only [decide_eq_true_eq, and_assoc] at hthrough hstarted
  rw [← taken, hself] at hthrough
  omega

end Splits

end Identity

end Ppv2Auth
