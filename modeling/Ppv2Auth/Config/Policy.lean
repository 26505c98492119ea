/-
What a policy means, told of headers and authored entries alone: no address is
synthesized and nothing is encoded, expanded or cached.  The rules a filter
runs on say the same of every header that is no IPv6 client claiming an address
inside the /48.
-/
import Ppv2Auth.Config.Expansion
import Ppv2Auth.Config.Precedence
import Ppv2Auth.Identity.Meeting

namespace Ppv2Auth

open Rust Identity BitPrefix Precedence Expansion

section Policy

variable [Sha256]

/-- What one literal says of a header: `!*` means any declared site. -/
def Covers (t : Table) (member : Bytes) (h : Ppv2.Header) : Prop :=
  (member = ascii "!*" ∧
      ∃ m, siteOf t.scheme h = some m ∧ ∃ site ∈ t.scheme.sites, m.id = site.id) ∨
    (member ≠ ascii "!*" ∧ ∃ meaning, Reads t.scheme member meaning ∧
      meaning.Holds t.scheme h)

/-- Some entry, or some member of a group it refers to, covers the header. -/
def Allows (t : Table) (list : List Bytes) (h : Ppv2.Header) : Prop :=
  ∃ member, t.groups.Reachable list member ∧ ¬ t.groups.IsKnownRef member ∧
    Covers t member h

end Policy

/-- A scope by its names alone. -/
def RawScope.written (s : RawScope) : WrittenScope := ⟨s.sni, .default⟩

/-- The scope a server name selects: the first that names it, else the first
with the longest wildcard. -/
inductive Chosen (scopes : List RawScope) (sni : Bytes) : RawScope → Prop where
  | exact {before after : List RawScope} {s : RawScope}
      (hscopes : scopes = before ++ s :: after) (hs : HoldsExact sni s.written)
      (hfirst : ∀ t ∈ before, ¬ HoldsExact sni t.written) : Chosen scopes sni s
  | wildcard {before after : List RawScope} {s : RawScope} {x : Bytes}
      (hscopes : scopes = before ++ s :: after)
      (hexact : ∀ t ∈ scopes, ¬ HoldsExact sni t.written) (hdot : AfterDot sni x)
      (hs : HoldsWildcard x s.written)
      (hfirst : ∀ t ∈ before, ¬ HoldsWildcard x t.written)
      (hlongest : ∀ y, AfterDot sni y → (∃ t ∈ scopes, HoldsWildcard y t.written) →
        y.length ≤ x.length) : Chosen scopes sni s

/-- The policy of a rules config: a flat list, or the list of the scope the
server name selects. -/
inductive Grants [Sha256] (raw : RawRules) (t : Table) (sni : Bytes) (h : Ppv2.Header) :
    Prop where
  | flat (hflat : raw.scopes = none) (hallows : Allows t raw.allow h) : Grants raw t sni h
  | scoped {scopes : List RawScope} {s : RawScope} (hscopes : raw.scopes = some scopes)
      (hchosen : Chosen scopes sni s) (hallows : Allows t s.allow h) : Grants raw t sni h

section Entries

variable [Sha256] {t : Table} {h : Ppv2.Header}

/-- An entry admits an identity exactly when it covers the header. -/
theorem admits_synthesize_iff
    (hin : PassesThrough t.scheme h → ¬ InPrefix t.scheme.pfx h.src) (member : Bytes) :
    Admits t member (toU128 (synthesize t.scheme h)) ↔ Covers t member h := by
  unfold Admits Covers
  refine or_congr (and_congr_right fun _ => ?_) (and_congr_right fun _ => ?_)
  · constructor
    · rintro ⟨site, hmem, hspace⟩
      obtain ⟨m, hsite, hid⟩ := (agree_site_iff hin site.id zeroQuad).mp hspace
      exact ⟨m, hsite, site, hmem, hid⟩
    · rintro ⟨m, hsite, site, hmem, hid⟩
      exact ⟨site, hmem, (agree_site_iff hin site.id zeroQuad).mpr ⟨m, hsite, hid⟩⟩
  · constructor
    · rintro ⟨base, width, hspells, hagree⟩
      obtain ⟨meaning, hreads⟩ := reads_exists t.scheme member
      rw [encodeMember_of_reads hreads, spells_cidrText (space_width_le hreads)] at hspells
      obtain ⟨rfl, rfl⟩ := hspells
      exact ⟨meaning, hreads, (agree_space_iff_holds hreads hin).mp hagree⟩
    · rintro ⟨meaning, hreads, hholds⟩
      refine ⟨_, _, ?_, (agree_space_iff_holds hreads hin).mpr hholds⟩
      rw [encodeMember_of_reads hreads, spells_cidrText (space_width_le hreads)]
      exact ⟨rfl, rfl⟩

/-- The set a list expands to, which always exists. -/
def resolved (t : Table) (list : List Bytes) : Cidr.Set :=
  ((t.resolve list).toOption).getD .default

theorem resolve_eq (t : Table) (list : List Bytes) :
    t.resolve list = .ok (resolved t list) := by
  obtain ⟨set, hset⟩ := exists_resolve t list
  rw [resolved, hset]
  rfl

/-- Some entry, or some member of a group it refers to, admits the address. -/
def Admitted (t : Table) (list : List Bytes) (a : U128) : Prop :=
  ∃ member, t.groups.Reachable list member ∧ ¬ t.groups.IsKnownRef member ∧ Admits t member a

theorem contains_resolved_iff (list : List Bytes) (a : U128) :
    (resolved t list).contains a = true ↔ Admitted t list a := by
  rw [contains_resolve_iff (resolve_eq t list)]
  simp only [Admitted, Graph.mem_resolve_iff, and_assoc]

theorem admitted_synthesize_iff
    (hin : PassesThrough t.scheme h → ¬ InPrefix t.scheme.pfx h.src) (list : List Bytes) :
    Admitted t list (toU128 (synthesize t.scheme h)) ↔ Allows t list h := by
  simp only [Admitted, Allows, admits_synthesize_iff hin]

end Entries

section Scopes

variable {scopes : List RawScope} {sni : Bytes}

/-- A scope with the set its list expands to. -/
def RawScope.with (s : RawScope) (set : Cidr.Set) : WrittenScope := ⟨s.sni, set⟩

theorem isFirst_map {P : WrittenScope → Prop} (f : RawScope → Cidr.Set)
    (hnames : ∀ s : RawScope, P (s.with (f s)) ↔ P s.written) {found : WrittenScope} :
    IsFirst P (scopes.map fun s => s.with (f s)) found ↔
      ∃ before after s, scopes = before ++ s :: after ∧ P s.written ∧
        (∀ t ∈ before, ¬ P t.written) ∧ found = s.with (f s) := by
  constructor
  · rintro ⟨hP, before, after, hsplit, hbefore⟩
    obtain ⟨before', rest, rfl, rfl, hrest⟩ := List.map_eq_append_iff.mp hsplit
    obtain ⟨s, after', rfl, rfl, rfl⟩ := List.map_eq_cons_iff.mp hrest
    refine ⟨before', after', s, rfl, (hnames s).mp hP, fun t ht hPt => ?_, rfl⟩
    exact hbefore _ (List.mem_map_of_mem ht) ((hnames t).mpr hPt)
  · rintro ⟨before, after, s, rfl, hP, hbefore, rfl⟩
    refine ⟨(hnames s).mpr hP, before.map fun s => s.with (f s),
      after.map fun s => s.with (f s), by simp, ?_⟩
    intro t ht hPt
    obtain ⟨s', hs', rfl⟩ := List.mem_map.mp ht
    exact hbefore s' hs' ((hnames s').mp hPt)

/-- The loops find the list of the chosen scope, whatever it expands to. -/
theorem matchScopes_map_iff (f : RawScope → Cidr.Set) (set : Cidr.Set) :
    matchScopes (scopes.map fun s => (s.with (f s)).scope) sni = some set ↔
      ∃ s, Chosen scopes sni s ∧ f s = set := by
  have hmap : (scopes.map fun s => (s.with (f s)).scope) =
      (scopes.map fun s => s.with (f s)).map WrittenScope.scope := by simp
  have hall : ∀ {P : WrittenScope → Prop},
      (∀ t ∈ scopes.map fun s => s.with (f s), ¬ P t) ↔ ∀ s ∈ scopes, ¬ P (s.with (f s)) := by
    simp
  rw [hmap]
  constructor
  · intro hmatch
    have hselected := selected_matchScopes (scopes.map fun s => s.with (f s)) sni
    rw [hmatch] at hselected
    cases hselected with
    | exact hfirst =>
        obtain ⟨before, after, s, rfl, hs, hbefore, rfl⟩ :=
          (isFirst_map f fun _ => Iff.rfl).mp hfirst
        exact ⟨s, .exact rfl hs hbefore, rfl⟩
    | @wildcard _ x hexact hdot hfirst hlongest =>
        obtain ⟨before, after, s, rfl, hs, hbefore, rfl⟩ :=
          (isFirst_map f fun _ => Iff.rfl).mp hfirst
        refine ⟨s, .wildcard rfl (hall.mp hexact) hdot hs hbefore ?_, rfl⟩
        rintro y hy ⟨t, ht, hholds⟩
        exact hlongest y hy ⟨t.with (f t), List.mem_map_of_mem ht, hholds⟩
  · rintro ⟨s, hchosen, rfl⟩
    apply Selected.matchScopes_eq
    cases hchosen with
    | @exact before after _ hscopes hs hfirst =>
        exact .exact (s := s.with (f s))
          ((isFirst_map f fun _ => Iff.rfl).mpr ⟨before, after, s, hscopes, hs, hfirst, rfl⟩)
    | @wildcard before after _ x hscopes hexact hdot hs hfirst hlongest =>
        refine .wildcard (s := s.with (f s)) (hall.mpr hexact) hdot
          ((isFirst_map f fun _ => Iff.rfl).mpr ⟨before, after, s, hscopes, hs, hfirst, rfl⟩) ?_
        rintro y hy ⟨t, ht, hholds⟩
        obtain ⟨s', hs', rfl⟩ := List.mem_map.mp ht
        exact hlongest y hy ⟨s', hs', hholds⟩

end Scopes

section Rules

variable [Sha256] {t : Table} {h : Ppv2.Header} {raw : RawRules}

/-- What rules expand to. -/
theorem judgeAgainst_eq (r : Rules) (t : Table) :
    r.judgeAgainst t = .ok ⟨resolved t r.rawAllow,
      r.rawScopes.map fun list => list.map fun s => ⟨s.1, resolved t s.2⟩⟩ := by
  simp only [Rules.judgeAgainst, bind_eq_ok_iff]
  refine ⟨_, resolve_eq t r.rawAllow, ?_⟩
  cases r.rawScopes with
  | none => rfl
  | some list =>
      refine bind_eq_ok_iff.mpr ⟨_, map_eq_ok_iff.mpr
        ⟨list.map fun s => ⟨s.1, resolved t s.2⟩, ?_, rfl⟩, rfl⟩
      rw [mapM_eq_ok_iff, List.forall₂_map_right_iff, List.forall₂_same]
      intro s _
      exact bind_eq_ok_iff.mpr ⟨_, resolve_eq t s.2, rfl⟩

theorem expand_ofRaw (raw : RawRules) (t : Table) :
    (Config.ofRaw raw).rules.expand (some t) = ⟨resolved t raw.allow,
      raw.scopes.map fun list =>
        list.map fun s => (s.with (resolved t s.allow)).scope⟩ := by
  simp only [Rules.expand, judgeAgainst_eq, Config.ofRaw, Option.map_map]
  congr 1
  cases raw.scopes with
  | none => rfl
  | some scopes => simp [RawScope.with, WrittenScope.scope]

/-- Expanded rules permit what some entry of the one list in force admits. -/
theorem expand_permits_iff_admitted (sni : Bytes) (a : U128) :
    ((Config.ofRaw raw).rules.expand (some t)).permits sni a = true ↔
      (raw.scopes = none ∧ Admitted t raw.allow a) ∨
        ∃ scopes s, raw.scopes = some scopes ∧ Chosen scopes sni s ∧
          Admitted t s.allow a := by
  rw [expand_ofRaw, Judged.permits]
  cases hscopes : raw.scopes with
  | none => simp [contains_resolved_iff]
  | some scopes =>
      simp only [Option.map_some, Option.any_eq_true, reduceCtorEq, false_and, false_or,
        Option.some.injEq, exists_and_left, exists_eq_left']
      constructor
      · rintro ⟨set, hset, hcontains⟩
        obtain ⟨s, hchosen, rfl⟩ :=
          (matchScopes_map_iff (fun s => resolved t s.allow) set).mp hset
        exact ⟨s, hchosen, (contains_resolved_iff s.allow a).mp hcontains⟩
      · rintro ⟨s, hchosen, hadmitted⟩
        exact ⟨_, (matchScopes_map_iff (fun s => resolved t s.allow) _).mpr ⟨s, hchosen, rfl⟩,
          (contains_resolved_iff s.allow a).mpr hadmitted⟩

/-- They permit the identity of a header exactly when the policy grants it. -/
theorem expand_permits_iff
    (hin : PassesThrough t.scheme h → ¬ InPrefix t.scheme.pfx h.src) (sni : Bytes) :
    ((Config.ofRaw raw).rules.expand (some t)).permits sni
        (toU128 (synthesize t.scheme h)) = true ↔ Grants raw t sni h := by
  simp only [expand_permits_iff_admitted, admitted_synthesize_iff hin]
  constructor
  · rintro (⟨hflat, hallows⟩ | ⟨scopes, s, hscopes, hchosen, hallows⟩)
    · exact .flat hflat hallows
    · exact .scoped hscopes hchosen hallows
  · rintro (⟨hflat, hallows⟩ | ⟨hscopes, hchosen, hallows⟩)
    · exact Or.inl ⟨hflat, hallows⟩
    · exact Or.inr ⟨_, _, hscopes, hchosen, hallows⟩

end Rules

end Ppv2Auth
