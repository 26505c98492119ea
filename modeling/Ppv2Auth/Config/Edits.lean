/-
What an edit of rules and groups can do.  Adding entries, to the lists of the
rules or to the groups they refer to, takes nothing away from anybody; and
groups that the rules do not reach say nothing about them.
-/
import Ppv2Auth.Config.Grouping
import Ppv2Auth.Support.Widening

namespace Ppv2Auth

namespace Edits

open Rust Identity Expansion Traversal Grouping

/-- A list with more entries, over groups with more members: the references on
the way are known in both tables or in neither. -/
structure Adds (t t' : Table) (list list' : List Bytes) : Prop where
  entries : list ⊆ list'
  members : Widens Graph.refName t.groups.membersOf t'.groups.membersOf list

/-- Rules with more entries in some of their lists, under the same names. -/
structure AddsTo (t t' : Table) (raw raw' : RawRules) : Prop where
  allow : Adds t t' raw.allow raw'.allow
  scopes : Option.Rel (List.Forall₂ fun s s' : RawScope =>
    s'.sni = s.sni ∧ Adds t t' s.allow s'.allow) raw.scopes raw'.scopes

/-- The lists of a rules config. -/
def listsOf (raw : RawRules) : List (List Bytes) :=
  raw.allow :: (raw.scopes.getD []).map RawScope.allow

/-- Two tables that differ in groups the rules do not reach. -/
structure SameView (raw : RawRules) (t t' : Table) : Prop where
  scheme : t'.scheme = t.scheme
  groups : ∀ list ∈ listsOf raw,
    Agrees Graph.refName t.groups.membersOf t'.groups.membersOf list

section Lists

variable [Sha256] {t t' : Table} {list list' : List Bytes}

theorem admitted_of_adds (hscheme : t'.scheme = t.scheme) (h : Adds t t' list list') {a : U128}
    (hadmitted : Admitted t list a) : Admitted t' list' a := by
  obtain ⟨member, hreach, hliteral, hadmits⟩ := hadmitted
  refine ⟨member, h.members.reachable h.entries hreach, ?_,
    (admits_of_scheme_eq hscheme member a).mpr hadmits⟩
  rw [← Graph.target_eq_none_iff] at hliteral ⊢
  exact (h.members.target_eq_none_iff hreach).mpr hliteral

theorem admitted_iff_of_agrees (hscheme : t'.scheme = t.scheme)
    (h : Agrees Graph.refName t.groups.membersOf t'.groups.membersOf list) (a : U128) :
    Admitted t' list a ↔ Admitted t list a := by
  constructor
  · rintro ⟨member, hreach, hliteral, hadmits⟩
    have hreached : t.groups.Reachable list member := h.reachable_iff.mp hreach
    refine ⟨member, hreached, ?_, (admits_of_scheme_eq hscheme member a).mp hadmits⟩
    rw [← Graph.target_eq_none_iff] at hliteral ⊢
    exact (h.widens.target_eq_none_iff hreached).mp hliteral
  · exact admitted_of_adds hscheme ⟨List.Subset.refl list, h.widens⟩

end Lists

section Rules

variable [Sha256] {t t' : Table} {raw raw' : RawRules}

omit [Sha256] in
theorem mem_listsOf {scopes : List RawScope} (hscopes : raw.scopes = some scopes) {sni : Bytes}
    {s : RawScope} (hchosen : Chosen scopes sni s) : s.allow ∈ listsOf raw := by
  have hs : s ∈ scopes := by
    cases hchosen with
    | exact hsplit => simp [hsplit]
    | wildcard hsplit => simp [hsplit]
  rw [listsOf, hscopes]
  exact List.mem_cons_of_mem _ (List.mem_map_of_mem hs)

/-- The rules see the same groups, so they judge the same. -/
theorem permits_of_sameView (h : SameView raw t t') (sni : Bytes) (a : U128) :
    ((Config.ofRaw raw).rules.expand (some t')).permits sni a =
      ((Config.ofRaw raw).rules.expand (some t)).permits sni a := by
  have hlist : ∀ list ∈ listsOf raw, (Admitted t' list a ↔ Admitted t list a) :=
    fun list hmem => admitted_iff_of_agrees h.scheme (h.groups list hmem) a
  rw [Bool.eq_iff_iff, expand_permits_iff_admitted, expand_permits_iff_admitted]
  constructor
  · rintro (⟨hflat, hadmitted⟩ | ⟨scopes, s, hscopes, hchosen, hadmitted⟩)
    · exact Or.inl ⟨hflat, (hlist _ List.mem_cons_self).mp hadmitted⟩
    · exact Or.inr ⟨scopes, s, hscopes, hchosen,
        (hlist _ (mem_listsOf hscopes hchosen)).mp hadmitted⟩
  · rintro (⟨hflat, hadmitted⟩ | ⟨scopes, s, hscopes, hchosen, hadmitted⟩)
    · exact Or.inl ⟨hflat, (hlist _ List.mem_cons_self).mpr hadmitted⟩
    · exact Or.inr ⟨scopes, s, hscopes, hchosen,
        (hlist _ (mem_listsOf hscopes hchosen)).mpr hadmitted⟩

/-- Adding revokes nothing.  Whatever is permitted stays so when entries are
added to the rules, whichever server name selects them, and members to the
groups they refer to. -/
theorem adding_revokes_nothing (hscheme : t'.scheme = t.scheme) (h : AddsTo t t' raw raw')
    {sni : Bytes} {a : U128}
    (hpermits : ((Config.ofRaw raw).rules.expand (some t)).permits sni a = true) :
    ((Config.ofRaw raw').rules.expand (some t')).permits sni a = true := by
  rw [expand_permits_iff_admitted] at hpermits ⊢
  have hrel := h.scopes
  rcases hpermits with ⟨hflat, hadmitted⟩ | ⟨scopes, s, hscopes, hchosen, hadmitted⟩
  · rw [hflat] at hrel
    cases hscopes' : raw'.scopes with
    | some scopes' =>
        rw [hscopes'] at hrel
        cases hrel
    | none => exact Or.inl ⟨rfl, admitted_of_adds hscheme h.allow hadmitted⟩
  · rw [hscopes] at hrel
    cases hscopes' : raw'.scopes with
    | none =>
        rw [hscopes'] at hrel
        cases hrel
    | some scopes' =>
        rw [hscopes'] at hrel
        cases hrel with
        | some hforall =>
            obtain ⟨s', hadds, hchosen'⟩ := chosen_of_forall₂ (fun _ _ hs => hs.1) hforall hchosen
            exact Or.inr ⟨scopes', s', rfl, hchosen', admitted_of_adds hscheme hadds.2 hadmitted⟩

end Rules

namespace EditsWitness

open GroupingWitness (office guest plain grouped)

attribute [local instance] MeetingWitness.endpointDigest

/-- The office group with a guest in it. -/
def joined : Table :=
  { plain with groups := Graph.default.upsert (ascii "office") [guest, office] }

theorem addsTo_joined : AddsTo grouped joined ⟨[reference (ascii "office")], none⟩
    ⟨[guest, reference (ascii "office")], none⟩ where
  allow.entries := by decide
  allow.members a k _ _ := by
    by_cases hk : k = ascii "office"
    · subst hk
      have hbefore : grouped.groups.membersOf (ascii "office") = some [office] := by
        decide +kernel
      have hafter : joined.groups.membersOf (ascii "office") = some [guest, office] := by
        decide +kernel
      rw [hbefore, hafter]
      exact .some (by simp)
    · have hbefore : grouped.groups.membersOf k = none := by
        simp [grouped, plain, Graph.default, Graph.upsert, Graph.membersOf, Ne.symm hk]
      have hafter : joined.groups.membersOf k = none := by
        simp [joined, plain, Graph.default, Graph.upsert, Graph.membersOf, Ne.symm hk]
      rw [hbefore, hafter]
      exact .none
  scopes := .none

/-- The office is still permitted with the guest added. -/
theorem adding_revokes_nothing_office :
    ((Config.ofRaw ⟨[guest, reference (ascii "office")], none⟩).rules.expand
      (some joined)).permits [] (toU128 (synthesize plain.scheme MeetingWitness.office)) =
        true := by
  have hscheme : joined.scheme = grouped.scheme := rfl
  have hbefore : ((Config.ofRaw ⟨[reference (ascii "office")], none⟩).rules.expand
      (some grouped)).permits [] (toU128 (synthesize plain.scheme MeetingWitness.office)) =
        true := by
    decide +kernel
  exact adding_revokes_nothing hscheme addsTo_joined hbefore

end EditsWitness

end Edits

end Ppv2Auth
