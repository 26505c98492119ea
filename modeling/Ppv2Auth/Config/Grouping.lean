/-
Naming part of a policy.  Entries of the rules, and members of the groups, are
moved into a group of their own and replaced by a reference to it; whatever
else is done to the order or number of entries, every identity is judged as
before.
-/
import Ppv2Auth.Config.Policy
import Ppv2Auth.Support.Factoring

namespace Ppv2Auth

namespace Grouping

open Rust Identity Precedence Expansion Traversal

/-- The member that refers to a group. -/
def reference (name : Bytes) : Bytes := 64 :: name

theorem refName_eq_some_iff {member name : Bytes} :
    Graph.refName member = some name ↔ member = reference name := by
  cases member with
  | nil => simp [Graph.refName, stripPrefix, reference]
  | cons c rest =>
      by_cases hc : c = 64
      · subst hc
        simp [Graph.refName, stripPrefix, reference]
      · simp [Graph.refName, stripPrefix, reference, hc, Ne.symm hc]

/-- A new group with these members, referred to where they stood. -/
structure NamesGroup (name : Bytes) (moved : List Bytes) (t t' : Table) : Prop where
  scheme : t'.scheme = t.scheme
  free : t.groups.membersOf name = none
  named : t'.groups.membersOf name = some moved
  unused : reference name ∉ moved
  others : ∀ other, other ≠ name → Option.Rel (Unfolds (reference name) moved)
    (t.groups.membersOf other) (t'.groups.membersOf other)

theorem NamesGroup.factors {name : Bytes} {moved : List Bytes} {t t' : Table}
    (h : NamesGroup name moved t t') :
    Factors Graph.refName (reference name) name moved t.groups.membersOf
      t'.groups.membersOf where
  refers _ := refName_eq_some_iff
  free := h.free
  named := h.named
  unused := h.unused
  others := h.others

/-- A scope under the same names, with its list rewritten. -/
def Rewrites (name : Bytes) (moved : List Bytes) (s s' : RawScope) : Prop :=
  s'.sni = s.sni ∧ Unfolds (reference name) moved s.allow s'.allow

/-- Rules that refer to the new group where its members stood. -/
structure RefersTo (name : Bytes) (moved : List Bytes) (raw raw' : RawRules) : Prop where
  allow : Unfolds (reference name) moved raw.allow raw'.allow
  scopes : Option.Rel (List.Forall₂ (Rewrites name moved)) raw.scopes raw'.scopes

section Related

variable {α β : Type} {R : α → β → Prop}

theorem forall₂_split {before after : List α} {s : α} {items : List β}
    (h : List.Forall₂ R (before ++ s :: after) items) :
    ∃ before' s' after', items = before' ++ s' :: after' ∧ List.Forall₂ R before before' ∧
      R s s' := by
  induction before generalizing items with
  | nil =>
      obtain ⟨s', after', hs, -, rfl⟩ := List.forall₂_cons_left_iff.mp h
      exact ⟨[], s', after', rfl, .nil, hs⟩
  | cons b before ih =>
      obtain ⟨b', rest', hb, hrest, rfl⟩ := List.forall₂_cons_left_iff.mp h
      obtain ⟨before', s', after', rfl, hbefore, hs⟩ := ih hrest
      exact ⟨b' :: before', s', after', rfl, .cons hb hbefore, hs⟩

theorem exists_mem_of_forall₂ {items : List α} {items' : List β}
    (h : List.Forall₂ R items items') {b : β} (hb : b ∈ items') : ∃ a ∈ items, R a b := by
  induction h with
  | nil => cases hb
  | @cons a b' rest rest' hab _ ih =>
      rcases List.mem_cons.mp hb with rfl | hrest
      · exact ⟨a, List.mem_cons_self, hab⟩
      · obtain ⟨a', ha', hR⟩ := ih hrest
        exact ⟨a', List.mem_cons_of_mem a ha', hR⟩

end Related

/-- The selection looks at names only. -/
theorem chosen_of_forall₂ {R : RawScope → RawScope → Prop}
    (hnames : ∀ s s', R s s' → s'.sni = s.sni) {scopes scopes' : List RawScope}
    (hscopes : List.Forall₂ R scopes scopes') {sni : Bytes} {s : RawScope}
    (hchosen : Chosen scopes sni s) : ∃ s', R s s' ∧ Chosen scopes' sni s' := by
  have hwritten : ∀ s s', R s s' → s'.written = s.written := fun s s' hs => by
    rw [RawScope.written, RawScope.written, hnames s s' hs]
  -- A condition on names that no scope meets is met by none of the others.
  have hnone : ∀ {P : WrittenScope → Prop} {before before' : List RawScope},
      List.Forall₂ R before before' → (∀ t ∈ before, ¬ P t.written) →
      ∀ t ∈ before', ¬ P t.written := by
    intro P before before' hbefore hno t ht
    obtain ⟨t₀, ht₀, hR⟩ := exists_mem_of_forall₂ hbefore ht
    rw [hwritten t₀ t hR]
    exact hno t₀ ht₀
  cases hchosen with
  | exact hsplit hs hfirst =>
      subst hsplit
      obtain ⟨before', s', after', rfl, hbefore, hR⟩ := forall₂_split hscopes
      exact ⟨s', hR, .exact rfl (hwritten s s' hR ▸ hs) (hnone hbefore hfirst)⟩
  | wildcard hsplit hexact hdot hs hfirst hlongest =>
      subst hsplit
      obtain ⟨before', s', after', rfl, hbefore, hR⟩ := forall₂_split hscopes
      refine ⟨s', hR, .wildcard rfl (hnone hscopes hexact) hdot (hwritten s s' hR ▸ hs)
        (hnone hbefore hfirst) ?_⟩
      rintro y hy ⟨t, ht, hholds⟩
      obtain ⟨t₀, ht₀, hR⟩ := exists_mem_of_forall₂ hscopes ht
      exact hlongest y hy ⟨t₀, ht₀, hwritten t₀ t hR ▸ hholds⟩

section Judged

variable [Sha256] {name : Bytes} {moved : List Bytes} {t t' : Table}

theorem admits_of_scheme_eq (hscheme : t'.scheme = t.scheme) (member : Bytes) (a : U128) :
    Admits t' member a ↔ Admits t member a := by
  simp only [Admits, hscheme]

/-- A rewritten list admits what the list admitted. -/
theorem admitted_iff_of_unfolds (h : NamesGroup name moved t t') {list list' : List Bytes}
    (hlist : Unfolds (reference name) moved list list') (a : U128) :
    Admitted t' list' a ↔ Admitted t list a := by
  have hleaves : ∀ member,
      (t'.groups.Reachable list' member ∧ ¬ t'.groups.IsKnownRef member) ↔
        t.groups.Reachable list member ∧ ¬ t.groups.IsKnownRef member := by
    intro member
    simp only [← Graph.target_eq_none_iff]
    exact h.factors.reachable_leaf_iff hlist
  simp only [Admitted, ← and_assoc, hleaves, admits_of_scheme_eq h.scheme]

/-- Naming part of a policy changes no judgement: whatever list of the rules or
of a group has some of its entries replaced by a reference to the new group,
and in whatever order the rest stands, rules and table permit what they did. -/
theorem naming_keeps_judgements (h : NamesGroup name moved t t') {raw raw' : RawRules}
    (hraw : RefersTo name moved raw raw') (sni : Bytes) (a : U128) :
    ((Config.ofRaw raw').rules.expand (some t')).permits sni a =
      ((Config.ofRaw raw).rules.expand (some t)).permits sni a := by
  rw [Bool.eq_iff_iff, expand_permits_iff_admitted, expand_permits_iff_admitted,
    admitted_iff_of_unfolds h hraw.allow]
  have hrel := hraw.scopes
  generalize raw.scopes = scopes at hrel
  generalize raw'.scopes = scopes' at hrel
  cases hrel with
  | none => simp
  | @some list list' hscopes =>
      simp only [reduceCtorEq, false_and, false_or, Option.some.injEq, exists_and_left,
        exists_eq_left']
      constructor
      · rintro ⟨s', hchosen', hadmitted'⟩
        have hflip : List.Forall₂ (flip (Rewrites name moved)) list' list :=
          List.Forall₂.flip hscopes
        obtain ⟨s, hs, hchosen⟩ :=
          chosen_of_forall₂ (fun _ _ hR => hR.1.symm) hflip hchosen'
        exact ⟨s, hchosen, (admitted_iff_of_unfolds h hs.2 a).mp hadmitted'⟩
      · rintro ⟨s, hchosen, hadmitted⟩
        obtain ⟨s', hs, hchosen'⟩ := chosen_of_forall₂ (fun _ _ hR => hR.1) hscopes hchosen
        exact ⟨s', hchosen', (admitted_iff_of_unfolds h hs.2 a).mpr hadmitted⟩

end Judged

namespace GroupingWitness

attribute [local instance] MeetingWitness.endpointDigest

def office : Bytes := ascii "10.0.0.0/8"

def guest : Bytes := ascii "192.0.2.1"

def plain : Table := ⟨Scheme.new MeetingWitness.pfx [], Graph.default⟩

def grouped : Table := { plain with groups := Graph.default.upsert (ascii "office") [office] }

theorem namesGroup_office : NamesGroup (ascii "office") [office] plain grouped where
  scheme := rfl
  free := by decide +kernel
  named := by decide +kernel
  unused := by decide
  others other hother := by
    have hplain : plain.groups.membersOf other = none := by
      simp [plain, Graph.default, Graph.membersOf]
    have hgrouped : grouped.groups.membersOf other = none := by
      simp [grouped, plain, Graph.default, Graph.upsert, Graph.membersOf, Ne.symm hother]
    rw [hplain, hgrouped]
    exact .none

/-- Two entries, one of which becomes a group that is named last. -/
theorem naming_keeps_judgements_office :
    ((Config.ofRaw ⟨[guest, reference (ascii "office")], none⟩).rules.expand
        (some grouped)).permits [] 0 =
      ((Config.ofRaw ⟨[office, guest], none⟩).rules.expand (some plain)).permits [] 0 := by
  apply naming_keeps_judgements namesGroup_office
  constructor
  · intro a
    have hne : guest ≠ reference (ascii "office") := by decide
    simp only [List.mem_cons, List.not_mem_nil, or_false]
    constructor
    · rintro (rfl | rfl)
      · exact Or.inr ⟨by simp, rfl⟩
      · exact Or.inl ⟨Or.inl rfl, hne⟩
    · rintro (⟨rfl | hfresh, hnot⟩ | ⟨-, rfl⟩)
      · exact Or.inr rfl
      · exact absurd hfresh hnot
      · exact Or.inl rfl
  · exact .none

end GroupingWitness

end Grouping

end Ppv2Auth
