/-
What a wildcard asks of the name in front of it.  The loop over the dots looks
at what stands behind a dot and never at what stands before it, so a wildcard
also claims names with an empty label where one is needed.
-/
import Ppv2Auth.Config.Precedence
import Ppv2Auth.Support.Labels

namespace Ppv2Auth

open Rust Precedence Labels

namespace Wildcards

/-- Where `match_scopes` returns from: a scope of the exact loop, or a scope of
the wildcard loop with what was left of the name there. -/
inductive Selection where
  | exact (scope : Scope)
  | wildcard (scope : Scope) (rest : Bytes)

def Selection.scope : Selection → Scope
  | .exact scope => scope
  | .wildcard scope _ => scope

/-- The wildcard loop, keeping where it returns from. -/
def selectSuffix (scopes : List Scope) : Bytes → Option Selection
  | [] => none
  | b :: rest =>
      if b = 46 then
        match scopes.find? fun s => s.names.any (·.isSuffixFor rest) with
        | some s => some (.wildcard s rest)
        | none => selectSuffix scopes rest
      else selectSuffix scopes rest

/-- Both loops, keeping where they return from. -/
def select (scopes : List Scope) (sni : Bytes) : Option Selection :=
  match scopes.find? fun s => s.names.any (·.isExactFor sni) with
  | some s => some (.exact s)
  | none => selectSuffix scopes sni

/-- The pattern `*.x` is read as. -/
def star (x : Bytes) : Pattern := Pattern.parse (ascii "*." ++ x)

/-- The scope is selected by the wildcard loop, and its name `*.x` is why. -/
def SelectedThrough (scopes : List Scope) (sni : Bytes) (s : Scope) (x : Bytes) :
    Prop :=
  ∃ rest, select scopes sni = some (.wildcard s rest) ∧
    star x ∈ s.names ∧ (star x).isSuffixFor rest = true

/-- The name is `p.x` up to case, and the last label of `p` is not empty. -/
def HasLabelBefore (sni x : Bytes) : Prop :=
  ∃ p, FoldEq sni (p ++ 46 :: x) ∧ lastLabel 46 p ≠ []

/-- Some scope names the server exactly. -/
def NamesExactly (scopes : List Scope) (sni : Bytes) : Prop :=
  ∃ s ∈ scopes, ∃ pat ∈ s.names, pat.isExactFor sni = true

/-- Some scope has the name `*.x`; `*.` alone is an exact name. -/
def HasWildcard (scopes : List Scope) (x : Bytes) : Prop :=
  x ≠ [] ∧ ∃ s ∈ scopes, star x ∈ s.names

theorem selectSuffix_eq (scopes : List Scope) (sni : Bytes) :
    selectSuffix scopes sni = (afterDots sni).findSome? fun rest =>
      (scopes.find? fun s => s.names.any (·.isSuffixFor rest)).map
        (Selection.wildcard · rest) := by
  apply eq_findSome?_afterDots rfl
  intro b rest
  rw [selectSuffix]
  cases scopes.find? fun s => s.names.any (·.isSuffixFor rest) with
  | none => rfl
  | some s => rfl

theorem matchSuffixes_eq_selectSuffix (scopes : List Scope) (sni : Bytes) :
    matchSuffixes scopes sni =
      (selectSuffix scopes sni).map fun found => found.scope.allow := by
  rw [matchSuffixes_eq, selectSuffix_eq, List.map_findSome?]
  simp only [Function.comp_def, Option.map_map, Selection.scope]

/-- Keeping where the loops return from changes nothing in what they return. -/
theorem matchScopes_eq_select (scopes : List Scope) (sni : Bytes) :
    matchScopes scopes sni =
      (select scopes sni).map fun found => found.scope.allow := by
  rw [matchScopes, select]
  cases scopes.find? fun s => s.names.any (·.isExactFor sni) with
  | some s => rfl
  | none => exact matchSuffixes_eq_selectSuffix scopes sni

theorem namesExactly_iff {scopes : List Scope} {sni : Bytes} :
    NamesExactly scopes sni ↔
      (scopes.find? fun s => s.names.any (·.isExactFor sni)) ≠ none := by
  simp [NamesExactly]

theorem select_eq_wildcard_iff {scopes : List Scope} {sni : Bytes} {s : Scope}
    {rest : Bytes} :
    select scopes sni = some (.wildcard s rest) ↔
      ¬ NamesExactly scopes sni ∧ AfterDot sni rest ∧
        (scopes.find? fun t => t.names.any (·.isSuffixFor rest)) = some s ∧
        ∀ longer, AfterDot sni longer → rest.length < longer.length →
          (scopes.find? fun t => t.names.any (·.isSuffixFor longer)) = none := by
  rw [select, namesExactly_iff, not_not]
  cases scopes.find? fun t => t.names.any (·.isExactFor sni) with
  | some t => simp
  | none =>
      simp only [true_and]
      rw [selectSuffix_eq, findSome?_afterDots_iff]
      simp only [Option.map_eq_some_iff, Selection.wildcard.injEq,
        Option.map_eq_none_iff]
      constructor
      · rintro ⟨rest, hdot, ⟨s, hfind, rfl, rfl⟩, hlonger⟩
        exact ⟨hdot, hfind, hlonger⟩
      · rintro ⟨hdot, hfind, hlonger⟩
        exact ⟨rest, hdot, ⟨s, hfind, rfl, rfl⟩, hlonger⟩

theorem isSuffixFor_iff {pat : Pattern} {rest : Bytes} :
    pat.isSuffixFor rest = true ↔ pat = .suffix (rest.map asciiLower) := by
  cases pat with
  | exact name => simp [Pattern.isSuffixFor]
  | suffix name => simp [Pattern.isSuffixFor, eqFold_iff]

theorem star_eq {x : Bytes} (hx : x ≠ []) : star x = .suffix (x.map asciiLower) :=
  parse_wildcard ⟨rfl, hx⟩

theorem isSuffixFor_star {x rest : Bytes} :
    (star x).isSuffixFor rest = true ↔ x ≠ [] ∧ FoldEq x rest := by
  rw [star, isSuffixFor_parse]
  constructor
  · rintro ⟨y, ⟨hsplit, hy⟩, hfold⟩
    obtain rfl := List.append_cancel_left hsplit
    exact ⟨hy, hfold⟩
  · rintro ⟨hx, hfold⟩
    exact ⟨x, ⟨rfl, hx⟩, hfold⟩

theorem hasWildcard_iff {scopes : List Scope} {rest : Bytes} (hrest : rest ≠ []) :
    HasWildcard scopes rest ↔
      (scopes.find? fun t => t.names.any (·.isSuffixFor rest)) ≠ none := by
  simp [HasWildcard, hrest, star_eq hrest, isSuffixFor_iff]

theorem find?_longer_eq_none_iff {scopes : List Scope} {rest longer : Bytes}
    (hless : rest.length < longer.length) :
    (scopes.find? fun t => t.names.any (·.isSuffixFor longer)) = none ↔
      ¬ HasWildcard scopes longer := by
  have hne : longer ≠ [] := List.ne_nil_of_length_pos (by omega)
  rw [hasWildcard_iff hne, not_not]

/-- The scope the loop stops at has the wildcard it stops for. -/
theorem star_mem_of_find? {scopes : List Scope} {rest x : Bytes} {s : Scope}
    (hfind : (scopes.find? fun t => t.names.any (·.isSuffixFor rest)) = some s)
    (hx : x ≠ []) (hfold : FoldEq x rest) : star x ∈ s.names := by
  have hany := List.find?_some hfind
  obtain ⟨pat, hmem, hsuffix⟩ := List.any_eq_true.mp hany
  have hpat : pat = star x := by
    rw [star_eq hx, hfold]
    exact isSuffixFor_iff.mp hsuffix
  exact hpat ▸ hmem

theorem SelectedThrough.mem {scopes : List Scope} {sni : Bytes} {s : Scope}
    {x : Bytes} (h : SelectedThrough scopes sni s x) : s ∈ scopes := by
  obtain ⟨rest, hselect, -⟩ := h
  exact List.mem_of_find?_eq_some (select_eq_wildcard_iff.mp hselect).2.2.1

theorem SelectedThrough.matchScopes_eq {scopes : List Scope} {sni : Bytes} {s : Scope}
    {x : Bytes} (h : SelectedThrough scopes sni s x) :
    matchScopes scopes sni = some s.allow := by
  obtain ⟨rest, hselect, -⟩ := h
  rw [matchScopes_eq_select, hselect]
  rfl

/-- With names as they are written, an allowlist that no exact name selects is
selected through some `*.x`. -/
theorem exists_selectedThrough_written {scopes : List WrittenScope} {sni : Bytes}
    {set : Cidr.Set}
    (hmatch : matchScopes (scopes.map WrittenScope.scope) sni = some set)
    (hexact : ¬ NamesExactly (scopes.map WrittenScope.scope) sni) :
    ∃ s x, SelectedThrough (scopes.map WrittenScope.scope) sni s x ∧
      s.allow = set := by
  rw [matchScopes_eq_select, Option.map_eq_some_iff] at hmatch
  obtain ⟨found, hselect, rfl⟩ := hmatch
  cases found with
  | exact s =>
      rw [namesExactly_iff, not_not] at hexact
      rw [select, hexact, selectSuffix_eq] at hselect
      obtain ⟨rest, -, hfound⟩ := List.exists_of_findSome?_eq_some hselect
      simp at hfound
  | wildcard s rest =>
      have hfind := (select_eq_wildcard_iff.mp hselect).2.2.1
      obtain ⟨written, -, rfl⟩ := List.mem_map.mp (List.mem_of_find?_eq_some hfind)
      have hany := List.find?_some hfind
      obtain ⟨text, htext, x, hwild, hfold⟩ :=
        (holdsWildcard_iff rest written).mp hany
      refine ⟨written.scope, x, ⟨rest, hselect, ?_, ?_⟩, rfl⟩
      · rw [star, ← hwild.1]
        exact List.mem_map_of_mem htext
      · exact isSuffixFor_star.mpr ⟨hwild.2, hfold⟩

theorem lastLabel_eq_nil_congr {x y : Bytes} (h : FoldEq x y) :
    lastLabel 46 x = [] ↔ lastLabel 46 y = [] := by
  have hdot : ∀ c : UInt8, asciiLower c = 46 ↔ c = 46 :=
    fun c => asciiLower_eq_iff (by decide)
  rw [← List.map_eq_nil_iff (f := asciiLower), ← lastLabel_map hdot, h,
    lastLabel_map hdot, List.map_eq_nil_iff]

theorem foldEq_append_dot_iff {p q x y : Bytes} (hfold : FoldEq x y) :
    FoldEq (p ++ 46 :: x) (q ++ 46 :: y) ↔ FoldEq p q := by
  simp only [FoldEq, List.map_append, List.map_cons]
  rw [hfold, List.append_left_inj]

/-- Whether there is a label does not depend on how the name is cut. -/
theorem hasLabelBefore_iff {front rest x : Bytes} (hfold : FoldEq x rest) :
    HasLabelBefore (front ++ 46 :: rest) x ↔ lastLabel 46 front ≠ [] := by
  constructor
  · rintro ⟨p, hp, hlabel⟩
    have hsame : FoldEq front p := (foldEq_append_dot_iff hfold.symm).mp hp
    exact (lastLabel_eq_nil_congr hsame).not.mpr hlabel
  · intro hlabel
    exact ⟨front, (foldEq_append_dot_iff hfold.symm).mpr rfl, hlabel⟩

theorem HasLabelBefore.not_parent {sni x : Bytes} (h : HasLabelBefore sni x) :
    ¬ FoldEq sni x := by
  obtain ⟨p, hp, -⟩ := h
  intro hfold
  have hlength := congrArg List.length (hfold.symm.trans hp)
  simp at hlength
  omega

theorem HasLabelBefore.not_behindEmpty {sni name x : Bytes} (h : HasLabelBefore sni x)
    (hbehind : BehindEmpty 46 name x) : ¬ FoldEq sni name := by
  obtain ⟨p, hp, hlabel⟩ := h
  obtain ⟨front, rfl⟩ := hbehind.exists_front
  intro hfold
  have hsame : FoldEq p front := (foldEq_append_dot_iff rfl).mp (hp.symm.trans hfold)
  exact hlabel ((lastLabel_eq_nil_congr hsame).mpr (behindEmpty_iff.mp hbehind))

/-- The names a wildcard is the reason for: no exact name comes first, and no
longer wildcard fits. -/
theorem exists_selectedThrough_iff {scopes : List Scope} {sni x : Bytes} :
    (∃ s, SelectedThrough scopes sni s x) ↔
      ¬ NamesExactly scopes sni ∧ ∃ rest, FoldEq x rest ∧ AfterDot sni rest ∧
        HasWildcard scopes rest ∧ ∀ longer, AfterDot sni longer →
          rest.length < longer.length → ¬ HasWildcard scopes longer := by
  constructor
  · rintro ⟨s, rest, hselect, hmem, hsuffix⟩
    obtain ⟨hexact, hdot, hfind, hnone⟩ := select_eq_wildcard_iff.mp hselect
    obtain ⟨hx, hfold⟩ := isSuffixFor_star.mp hsuffix
    have hrest : rest ≠ [] := by
      rintro rfl
      simp [FoldEq, hx] at hfold
    refine ⟨hexact, rest, hfold, hdot, ?_, ?_⟩
    · rw [hasWildcard_iff hrest, hfind]
      exact Option.some_ne_none s
    · intro longer hdot hless
      exact (find?_longer_eq_none_iff hless).mp (hnone longer hdot hless)
  · rintro ⟨hexact, rest, hfold, hdot, hwild, hnone⟩
    obtain ⟨s, hfind⟩ :=
      Option.ne_none_iff_exists'.mp ((hasWildcard_iff hwild.1).mp hwild)
    have hx : x ≠ [] := by
      rintro rfl
      exact hwild.1 (List.map_eq_nil_iff.mp hfold.symm)
    have hselect : select scopes sni = some (.wildcard s rest) := by
      apply select_eq_wildcard_iff.mpr
      refine ⟨hexact, hdot, hfind, ?_⟩
      intro longer hdot hless
      exact (find?_longer_eq_none_iff hless).mpr (hnone longer hdot hless)
    exact ⟨s, rest, hselect, star_mem_of_find? hfind hx hfold,
      isSuffixFor_star.mpr ⟨hx, hfold⟩⟩

/-- One scope named `*.x` claims every name with an empty label before `x`. -/
theorem selectedThrough_star {sni x : Bytes} (allow : Cidr.Set) (hx : x ≠ [])
    (hbehind : BehindEmpty 46 sni x) :
    SelectedThrough [⟨[star x], allow⟩] sni ⟨[star x], allow⟩ x := by
  have hexact : ¬ NamesExactly [⟨[star x], allow⟩] sni := by
    simp [NamesExactly, star_eq hx, Pattern.isExactFor]
  have hwild : HasWildcard [⟨[star x], allow⟩] x := ⟨hx, by simp⟩
  have hnone : ∀ longer, AfterDot sni longer → x.length < longer.length →
      ¬ HasWildcard [⟨[star x], allow⟩] longer := by
    rintro longer - hless ⟨hlonger, hmem⟩
    simp only [List.mem_singleton, exists_eq_left, star_eq hx, star_eq hlonger,
      Pattern.suffix.injEq] at hmem
    have hlength := congrArg List.length hmem
    simp only [List.length_map] at hlength
    omega
  obtain ⟨s, hthrough⟩ := exists_selectedThrough_iff.mpr
    ⟨hexact, x, rfl, hbehind.exists_front, hwild, hnone⟩
  obtain rfl := List.mem_singleton.mp hthrough.mem
  exact hthrough

/-- The name has a label in front of what a wildcard claims exactly when an
exact name comes first or every wildcard that fits behind an empty label gives
way to a longer one. -/
theorem wildcard_needs_label_iff (scopes : List Scope) (sni : Bytes) :
    (∀ s x, SelectedThrough scopes sni s x →
      HasLabelBefore sni x ∧
        ¬ FoldEq sni x ∧ ¬ FoldEq sni (46 :: x) ∧
          ∀ q, ¬ FoldEq sni (q ++ 46 :: 46 :: x)) ↔
    NamesExactly scopes sni ∨
      ∀ rest, BehindEmpty 46 sni rest → HasWildcard scopes rest →
        ∃ longer, AfterDot sni longer ∧ rest.length < longer.length ∧
          HasWildcard scopes longer := by
  constructor
  · intro hclaim
    by_cases hexact : NamesExactly scopes sni
    · exact Or.inl hexact
    · right
      intro rest hbehind hwild
      by_contra hnone
      push Not at hnone
      obtain ⟨s, hthrough⟩ := exists_selectedThrough_iff.mpr
        ⟨hexact, rest, rfl, hbehind.exists_front, hwild, hnone⟩
      exact (hclaim s rest hthrough).1.not_behindEmpty hbehind rfl
  · intro hcondition s x hthrough
    obtain ⟨hexact, rest, hfold, ⟨front, rfl⟩, hwild, hnone⟩ :=
      exists_selectedThrough_iff.mp ⟨s, hthrough⟩
    have hlabel : HasLabelBefore (front ++ 46 :: rest) x := by
      rw [hasLabelBefore_iff hfold]
      intro hempty
      obtain ⟨longer, hdot, hless, hwild'⟩ :=
        hcondition.resolve_left hexact rest (behindEmpty_iff.mpr hempty) hwild
      exact hnone longer hdot hless hwild'
    refine ⟨hlabel, hlabel.not_parent, ?_, fun q => ?_⟩
    · exact hlabel.not_behindEmpty (Or.inl rfl)
    · exact hlabel.not_behindEmpty (Or.inr ⟨q, rfl⟩)

namespace WildcardsWitness

/-- The scope `*.mgmt.test`, with an allowlist of one address. -/
def management : Scope :=
  ⟨[star (ascii "mgmt.test")], Cidr.Set.ofRanges [Cidr.Range.ofPrefix 1 128]⟩

/-- The name `.mgmt.test` has nothing in front, and the wildcard claims it. -/
theorem management_claims_empty :
    SelectedThrough [management] (ascii ".mgmt.test") management (ascii "mgmt.test") ∧
      matchScopes [management] (ascii ".mgmt.test") = some management.allow ∧
      ¬ HasLabelBefore (ascii ".mgmt.test") (ascii "mgmt.test") := by
  have hopens : ascii ".mgmt.test" = 46 :: ascii "mgmt.test" := by decide
  have hbehind : BehindEmpty 46 (ascii ".mgmt.test") (ascii "mgmt.test") :=
    Or.inl hopens
  have hthrough := selectedThrough_star management.allow (by decide) hbehind
  refine ⟨hthrough, hthrough.matchScopes_eq, ?_⟩
  exact fun hlabel => hlabel.not_behindEmpty hbehind rfl

end WildcardsWitness

end Wildcards

end Ppv2Auth
