/-
Which scope a server name selects.  The loops over scopes, names and dots come
to one rule on the names as they are written: an exact name first, else the
longest wildcard, and the order of the scopes decides only between equals.
-/
import Ppv2Auth.Config

namespace Ppv2Auth

open Rust

namespace Precedence

/-- A scope with its names as they are written. -/
structure WrittenScope where
  texts : List Bytes
  allow : Cidr.Set

def WrittenScope.scope (s : WrittenScope) : Scope :=
  ⟨s.texts.map Pattern.parse, s.allow⟩

/-- Equal up to ASCII case. -/
def FoldEq (x y : Bytes) : Prop := x.map asciiLower = y.map asciiLower

/-- `*.x` for a nonempty `x`; anything else is an exact name. -/
def IsWildcard (text x : Bytes) : Prop := text = ascii "*." ++ x ∧ x ≠ []

def HoldsExact (sni : Bytes) (s : WrittenScope) : Prop :=
  ∃ text ∈ s.texts, (∀ x, ¬ IsWildcard text x) ∧ FoldEq text sni

def HoldsWildcard (x : Bytes) (s : WrittenScope) : Prop :=
  ∃ text ∈ s.texts, ∃ y, IsWildcard text y ∧ FoldEq y x

/-- What stands behind some dot of the name. -/
def AfterDot (sni x : Bytes) : Prop := ∃ front, sni = front ++ 46 :: x

/-- The first scope of the list with a property. -/
def IsFirst (P : WrittenScope → Prop) (scopes : List WrittenScope)
    (s : WrittenScope) : Prop :=
  P s ∧ ∃ before after, scopes = before ++ s :: after ∧ ∀ t ∈ before, ¬ P t

/-- The allowlist a server name selects, by the rule of precedence. -/
inductive Selected (scopes : List WrittenScope) (sni : Bytes) :
    Option Cidr.Set → Prop where
  | exact {s : WrittenScope} (hfirst : IsFirst (HoldsExact sni) scopes s) :
      Selected scopes sni (some s.allow)
  | wildcard {s : WrittenScope} {x : Bytes}
      (hexact : ∀ t ∈ scopes, ¬ HoldsExact sni t) (hdot : AfterDot sni x)
      (hfirst : IsFirst (HoldsWildcard x) scopes s)
      (hlongest : ∀ y, AfterDot sni y → (∃ t ∈ scopes, HoldsWildcard y t) →
        y.length ≤ x.length) :
      Selected scopes sni (some s.allow)
  | nothing (hexact : ∀ t ∈ scopes, ¬ HoldsExact sni t)
      (hwildcard : ∀ x, AfterDot sni x → ∀ t ∈ scopes, ¬ HoldsWildcard x t) :
      Selected scopes sni none

/-- No name of one scope is, up to case, a name of the other. -/
def Distinct (s t : WrittenScope) : Prop :=
  ∀ text ∈ s.texts, ∀ text' ∈ t.texts, ¬ FoldEq text text'

/-- No name of the scope matches the server name. -/
def Misses (sni : Bytes) (s : WrittenScope) : Prop :=
  ¬ HoldsExact sni s ∧ ∀ x, AfterDot sni x → ¬ HoldsWildcard x s

theorem asciiLower_eq_iff {c d : UInt8} (hd : d < 65) : asciiLower c = d ↔ c = d := by
  unfold asciiLower
  grind

theorem eqFold_iff {pat sni : Bytes} :
    eqFold pat sni = true ↔ pat = sni.map asciiLower := by
  unfold eqFold
  induction pat generalizing sni with
  | nil =>
      cases sni with
      | nil => simp
      | cons c rest => simp
  | cons p pat ih =>
      cases sni with
      | nil => simp
      | cons c rest =>
          have hrest := @ih rest
          simp only [decide_eq_true_eq] at hrest
          simp only [List.length_cons, Nat.add_right_cancel_iff, List.zip_cons_cons,
            List.all_cons, Bool.and_eq_true, decide_eq_true_eq, List.map_cons,
            List.cons.injEq, ← hrest]
          tauto

theorem stripPrefix_lower {text rest : Bytes} :
    stripPrefix (ascii "*.") (text.map asciiLower) = some rest ↔
      ∃ x, text = ascii "*." ++ x ∧ rest = x.map asciiLower := by
  have hpre : ascii "*." = [42, 46] := by decide
  simp only [stripPrefix, hpre, Option.ite_none_right_eq_some, Option.some.injEq,
    List.isPrefixOf_iff_prefix]
  constructor
  · rintro ⟨hstar, rfl⟩
    match text, hstar with
    | [], hstar => simp at hstar
    | [c], hstar => simp at hstar
    | c :: d :: x, hstar =>
        simp only [List.map_cons, List.cons_prefix_cons, List.nil_prefix, and_true,
          eq_comm (a := (42 : UInt8)), eq_comm (a := (46 : UInt8))] at hstar
        rw [asciiLower_eq_iff (by decide), asciiLower_eq_iff (by decide)] at hstar
        obtain ⟨rfl, rfl⟩ := hstar
        exact ⟨x, rfl, rfl⟩
  · rintro ⟨x, rfl, rfl⟩
    constructor
    · simp [asciiLower]
    · simp

theorem parse_wildcard {text x : Bytes} (h : IsWildcard text x) :
    Pattern.parse text = .suffix (x.map asciiLower) := by
  have hstrip := stripPrefix_lower.mpr ⟨x, h.1, rfl⟩
  simp [Pattern.parse, hstrip, h.2]

theorem parse_plain {text : Bytes} (h : ∀ x, ¬ IsWildcard text x) :
    Pattern.parse text = .exact (text.map asciiLower) := by
  cases hstrip : stripPrefix (ascii "*.") (text.map asciiLower) with
  | none => simp [Pattern.parse, hstrip]
  | some rest =>
      obtain ⟨x, htext, rfl⟩ := stripPrefix_lower.mp hstrip
      have hempty : x = [] := by
        by_contra hx
        exact h x ⟨htext, hx⟩
      simp [Pattern.parse, hstrip, hempty]

theorem IsWildcard.unique {text x y : Bytes} (hx : IsWildcard text x)
    (hy : IsWildcard text y) : x = y :=
  List.append_cancel_left (hx.1.symm.trans hy.1)

theorem isExactFor_parse {text sni : Bytes} :
    (Pattern.parse text).isExactFor sni = true ↔
      (∀ x, ¬ IsWildcard text x) ∧ FoldEq text sni := by
  by_cases hwild : ∃ x, IsWildcard text x
  · obtain ⟨x, hx⟩ := hwild
    rw [parse_wildcard hx]
    simp only [Pattern.isExactFor, Bool.false_eq_true, false_iff]
    exact fun h => h.1 x hx
  · have hplain : ∀ x, ¬ IsWildcard text x := fun x hx => hwild ⟨x, hx⟩
    rw [parse_plain hplain, Pattern.isExactFor, eqFold_iff]
    exact ⟨fun h => ⟨hplain, h⟩, And.right⟩

theorem isSuffixFor_parse {text rest : Bytes} :
    (Pattern.parse text).isSuffixFor rest = true ↔
      ∃ x, IsWildcard text x ∧ FoldEq x rest := by
  by_cases hwild : ∃ x, IsWildcard text x
  · obtain ⟨x, hx⟩ := hwild
    rw [parse_wildcard hx, Pattern.isSuffixFor, eqFold_iff]
    constructor
    · exact fun h => ⟨x, hx, h⟩
    · rintro ⟨y, hy, hfold⟩
      rw [hx.unique hy]
      exact hfold
  · rw [parse_plain fun x hx => hwild ⟨x, hx⟩]
    simp only [Pattern.isSuffixFor, Bool.false_eq_true, false_iff]
    rintro ⟨x, hx, -⟩
    exact hwild ⟨x, hx⟩

theorem holdsExact_iff (sni : Bytes) (s : WrittenScope) :
    s.scope.names.any (·.isExactFor sni) = true ↔ HoldsExact sni s := by
  simp [WrittenScope.scope, isExactFor_parse, HoldsExact]

theorem holdsWildcard_iff (rest : Bytes) (s : WrittenScope) :
    s.scope.names.any (·.isSuffixFor rest) = true ↔ HoldsWildcard rest s := by
  simp [WrittenScope.scope, isSuffixFor_parse, HoldsWildcard]

/-- The search through the scopes stops at the first that has the property. -/
theorem find?_scope_iff {P : WrittenScope → Prop} {p : Scope → Bool}
    (hp : ∀ s, p s.scope = true ↔ P s) {scopes : List WrittenScope}
    {found : Scope} :
    (scopes.map WrittenScope.scope).find? p = some found ↔
      ∃ s, s.scope = found ∧ IsFirst P scopes s := by
  rw [List.find?_map, Option.map_eq_some_iff]
  simp only [List.find?_eq_some_iff_append, Function.comp_apply, hp, IsFirst,
    Bool.not_eq_true', ← Bool.not_eq_true]
  constructor
  · rintro ⟨s, hs, rfl⟩
    exact ⟨s, rfl, hs⟩
  · rintro ⟨s, rfl, hs⟩
    exact ⟨s, hs, rfl⟩

theorem find?_scope_eq_none_iff {P : WrittenScope → Prop} {p : Scope → Bool}
    (hp : ∀ s, p s.scope = true ↔ P s) {scopes : List WrittenScope} :
    (scopes.map WrittenScope.scope).find? p = none ↔ ∀ s ∈ scopes, ¬ P s := by
  simp [← hp]

/-- What stands behind each dot, the longest first. -/
def afterDots : Bytes → List Bytes
  | [] => []
  | b :: rest => if b = 46 then rest :: afterDots rest else afterDots rest

theorem mem_afterDots {sni x : Bytes} : x ∈ afterDots sni ↔ AfterDot sni x := by
  induction sni with
  | nil => simp [afterDots, AfterDot]
  | cons b rest ih =>
      have hcons : AfterDot (b :: rest) x ↔ (b = 46 ∧ rest = x) ∨ AfterDot rest x := by
        constructor
        · rintro ⟨front, hfront⟩
          cases front with
          | nil =>
              simp only [List.nil_append, List.cons.injEq] at hfront
              exact Or.inl hfront
          | cons c front =>
              simp only [List.cons_append, List.cons.injEq] at hfront
              exact Or.inr ⟨front, hfront.2⟩
        · rintro (⟨rfl, rfl⟩ | ⟨front, rfl⟩)
          · exact ⟨[], rfl⟩
          · exact ⟨b :: front, rfl⟩
      rw [afterDots, hcons, ← ih]
      by_cases hdot : b = 46
      · simp [hdot, eq_comm]
      · simp [hdot]

theorem AfterDot.length_lt {sni x : Bytes} (h : AfterDot sni x) :
    x.length < sni.length := by
  obtain ⟨front, rfl⟩ := h
  simp
  omega

theorem afterDots_pairwise (sni : Bytes) :
    (afterDots sni).Pairwise fun x y => y.length < x.length := by
  induction sni with
  | nil => exact List.Pairwise.nil
  | cons b rest ih =>
      rw [afterDots]
      split
      · apply List.pairwise_cons.mpr
        exact ⟨fun x hx => (mem_afterDots.mp hx).length_lt, ih⟩
      · exact ih

/-- A search behind the dots finds what it finds behind the first dot that has
anything, the one with the most behind it. -/
theorem findSome?_afterDots_iff {β : Type*} {f : Bytes → Option β} {sni : Bytes}
    {b : β} :
    (afterDots sni).findSome? f = some b ↔
      ∃ rest, AfterDot sni rest ∧ f rest = some b ∧
        ∀ longer, AfterDot sni longer → rest.length < longer.length →
          f longer = none := by
  have horder := afterDots_pairwise sni
  rw [List.findSome?_eq_some_iff]
  constructor
  · rintro ⟨before, rest, after, hsplit, hrest, hbefore⟩
    refine ⟨rest, by simp [← mem_afterDots, hsplit], hrest, ?_⟩
    intro longer hdot hless
    rw [← mem_afterDots, hsplit] at hdot
    rw [hsplit] at horder
    rcases List.mem_append.mp hdot with hmem | hmem
    · exact hbefore longer hmem
    · have htail := (List.pairwise_append.mp horder).2.1
      rcases List.mem_cons.mp hmem with rfl | hmem
      · exact absurd hless (lt_irrefl _)
      · exact absurd hless ((List.pairwise_cons.mp htail).1 longer hmem).not_gt
  · rintro ⟨rest, hdot, hrest, hlonger⟩
    obtain ⟨before, after, hsplit⟩ := List.append_of_mem (mem_afterDots.mpr hdot)
    refine ⟨before, rest, after, hsplit, hrest, ?_⟩
    intro longer hmem
    rw [hsplit] at horder
    apply hlonger longer
    · simp [← mem_afterDots, hsplit, hmem]
    · exact (List.pairwise_append.mp horder).2.2 longer hmem rest List.mem_cons_self

/-- A loop that looks behind each dot in turn is a search behind the dots. -/
theorem eq_findSome?_afterDots {β : Type*} {f loop : Bytes → Option β}
    (hnil : loop [] = none)
    (hcons : ∀ b rest, loop (b :: rest) =
      if b = 46 then (f rest).or (loop rest) else loop rest) (sni : Bytes) :
    loop sni = (afterDots sni).findSome? f := by
  induction sni with
  | nil => exact hnil
  | cons b rest ih =>
      rw [hcons, afterDots]
      by_cases hdot : b = 46
      · rw [if_pos hdot, if_pos hdot, List.findSome?_cons, ih]
        cases f rest with
        | none => rfl
        | some found => rfl
      · rw [if_neg hdot, if_neg hdot, ih]

theorem matchSuffixes_eq (scopes : List Scope) (sni : Bytes) :
    matchSuffixes scopes sni = (afterDots sni).findSome? fun rest =>
      (scopes.find? fun s => s.names.any (·.isSuffixFor rest)).map Scope.allow := by
  apply eq_findSome?_afterDots rfl
  intro b rest
  rw [matchSuffixes]
  cases scopes.find? fun s => s.names.any (·.isSuffixFor rest) with
  | none => rfl
  | some s => rfl

/-- The loops select what the rule does. -/
theorem selected_matchScopes (scopes : List WrittenScope) (sni : Bytes) :
    Selected scopes sni (matchScopes (scopes.map WrittenScope.scope) sni) := by
  rw [matchScopes]
  cases hfind : (scopes.map WrittenScope.scope).find?
      fun s => s.names.any (·.isExactFor sni) with
  | some found =>
      obtain ⟨s, rfl, hfirst⟩ := (find?_scope_iff (holdsExact_iff sni)).mp hfind
      exact .exact hfirst
  | none =>
      have hexact := (find?_scope_eq_none_iff (holdsExact_iff sni)).mp hfind
      simp only [matchSuffixes_eq]
      cases hsome : (afterDots sni).findSome? fun rest =>
          ((scopes.map WrittenScope.scope).find? fun s =>
            s.names.any (·.isSuffixFor rest)).map Scope.allow with
      | none =>
          apply Selected.nothing hexact
          intro x hdot
          have hx := List.findSome?_eq_none_iff.mp hsome x (mem_afterDots.mpr hdot)
          rw [Option.map_eq_none_iff] at hx
          exact (find?_scope_eq_none_iff (holdsWildcard_iff x)).mp hx
      | some set =>
          obtain ⟨x, hdot, hx, hlonger⟩ := findSome?_afterDots_iff.mp hsome
          obtain ⟨found, hfound, rfl⟩ := Option.map_eq_some_iff.mp hx
          obtain ⟨s, rfl, hfirst⟩ := (find?_scope_iff (holdsWildcard_iff x)).mp hfound
          apply Selected.wildcard hexact hdot hfirst
          rintro y hy ⟨t, ht, hholds⟩
          by_contra hless
          -- The dots before the one that decided found nothing.
          have hnone := hlonger y hy (not_le.mp hless)
          rw [Option.map_eq_none_iff] at hnone
          exact (find?_scope_eq_none_iff (holdsWildcard_iff y)).mp hnone t ht hholds

/-- The rule selects one allowlist, the one the loops find. -/
theorem Selected.matchScopes_eq {scopes : List WrittenScope} {sni : Bytes}
    {r : Option Cidr.Set} (h : Selected scopes sni r) :
    matchScopes (scopes.map WrittenScope.scope) sni = r := by
  cases h with
  | @exact s hfirst =>
      rw [matchScopes, (find?_scope_iff (holdsExact_iff sni)).mpr ⟨s, rfl, hfirst⟩]
      rfl
  | @wildcard s x hexact hdot hfirst hlongest =>
      rw [matchScopes, (find?_scope_eq_none_iff (holdsExact_iff sni)).mpr hexact]
      simp only [matchSuffixes_eq]
      apply findSome?_afterDots_iff.mpr
      refine ⟨x, hdot, ?_, ?_⟩
      · rw [(find?_scope_iff (holdsWildcard_iff x)).mpr ⟨s, rfl, hfirst⟩]
        rfl
      · intro y hy hless
        rw [Option.map_eq_none_iff, find?_scope_eq_none_iff (holdsWildcard_iff y)]
        intro t ht hholds
        exact absurd hless (not_lt.mpr (hlongest y hy ⟨t, ht, hholds⟩))
  | nothing hexact hwildcard =>
      rw [matchScopes, (find?_scope_eq_none_iff (holdsExact_iff sni)).mpr hexact]
      simp only [matchSuffixes_eq]
      apply List.findSome?_eq_none_iff.mpr
      intro x hx
      rw [Option.map_eq_none_iff, find?_scope_eq_none_iff (holdsWildcard_iff x)]
      exact hwildcard x (mem_afterDots.mp hx)

theorem FoldEq.symm {x y : Bytes} (h : FoldEq x y) : FoldEq y x := Eq.symm h

theorem FoldEq.trans {x y z : Bytes} (hxy : FoldEq x y) (hyz : FoldEq y z) :
    FoldEq x z := Eq.trans hxy hyz

theorem Distinct.symm {s t : WrittenScope} (h : Distinct s t) : Distinct t s :=
  fun text ht text' hs hfold => h text' hs text ht hfold.symm

theorem Distinct.not_both_exact {sni : Bytes} {s t : WrittenScope}
    (h : Distinct s t) : ¬ (HoldsExact sni s ∧ HoldsExact sni t) := by
  rintro ⟨⟨text, hs, -, hfold⟩, text', ht, -, hfold'⟩
  exact h text hs text' ht (hfold.trans hfold'.symm)

theorem Distinct.not_both_wildcard {x : Bytes} {s t : WrittenScope}
    (h : Distinct s t) : ¬ (HoldsWildcard x s ∧ HoldsWildcard x t) := by
  rintro ⟨⟨text, hs, y, ⟨rfl, -⟩, hfold⟩, text', ht, y', ⟨rfl, -⟩, hfold'⟩
  apply h _ hs _ ht
  have hsame : y.map asciiLower = y'.map asciiLower := hfold.trans hfold'.symm
  simp [FoldEq, hsame]

theorem IsFirst.perm {P : WrittenScope → Prop} {scopes scopes' : List WrittenScope}
    {s : WrittenScope} (h : IsFirst P scopes s) (hperm : scopes.Perm scopes')
    (hone : scopes'.Pairwise fun a b => ¬ (P a ∧ P b)) : IsFirst P scopes' s := by
  obtain ⟨hs, before, after, rfl, -⟩ := h
  have hmem : s ∈ scopes' := hperm.mem_iff.mp (by simp)
  obtain ⟨before', after', rfl⟩ := List.append_of_mem hmem
  refine ⟨hs, before', after', rfl, ?_⟩
  intro t ht hPt
  exact (List.pairwise_append.mp hone).2.2 t ht s List.mem_cons_self ⟨hPt, hs⟩

theorem IsFirst.append {P : WrittenScope → Prop} {scopes : List WrittenScope}
    {s : WrittenScope} (h : IsFirst P scopes s) (t : WrittenScope) :
    IsFirst P (scopes ++ [t]) s := by
  obtain ⟨hs, before, after, rfl, hbefore⟩ := h
  exact ⟨hs, before, after ++ [t], by simp, hbefore⟩

theorem Selected.perm {scopes scopes' : List WrittenScope} {sni : Bytes}
    {r : Option Cidr.Set} (h : Selected scopes sni r) (hperm : scopes.Perm scopes')
    (hdistinct : scopes.Pairwise Distinct) : Selected scopes' sni r := by
  have hdistinct' := (hperm.pairwise_iff fun h => h.symm).mp hdistinct
  cases h with
  | exact hfirst =>
      apply Selected.exact
      exact hfirst.perm hperm (hdistinct'.imp fun h => h.not_both_exact)
  | wildcard hexact hdot hfirst hlongest =>
      apply Selected.wildcard _ hdot
      · exact hfirst.perm hperm (hdistinct'.imp fun h => h.not_both_wildcard)
      · rintro y hy ⟨t, ht, hholds⟩
        exact hlongest y hy ⟨t, hperm.mem_iff.mpr ht, hholds⟩
      · exact fun t ht => hexact t (hperm.mem_iff.mpr ht)
  | nothing hexact hwildcard =>
      apply Selected.nothing
      · exact fun t ht => hexact t (hperm.mem_iff.mpr ht)
      · exact fun x hx t ht => hwildcard x hx t (hperm.mem_iff.mpr ht)

theorem Selected.append {scopes : List WrittenScope} {sni : Bytes}
    {r : Option Cidr.Set} (h : Selected scopes sni r) {s : WrittenScope}
    (hs : Misses sni s) : Selected (scopes ++ [s]) sni r := by
  have hboth : ∀ P : WrittenScope → Prop, ¬ P s → (∀ t ∈ scopes, ¬ P t) →
      ∀ t ∈ scopes ++ [s], ¬ P t := by
    intro P hnew hold t ht
    rcases List.mem_append.mp ht with ht | ht
    · exact hold t ht
    · exact List.mem_singleton.mp ht ▸ hnew
  cases h with
  | exact hfirst => exact .exact (hfirst.append s)
  | wildcard hexact hdot hfirst hlongest =>
      apply Selected.wildcard (hboth _ hs.1 hexact) hdot (hfirst.append s)
      rintro y hy ⟨t, ht, hholds⟩
      rcases List.mem_append.mp ht with ht | ht
      · exact hlongest y hy ⟨t, ht, hholds⟩
      · exact absurd (List.mem_singleton.mp ht ▸ hholds) (hs.2 y hy)
  | nothing hexact hwildcard =>
      apply Selected.nothing (hboth _ hs.1 hexact)
      exact fun x hx => hboth _ (hs.2 x hx) (hwildcard x hx)

/-- The precedence of scopes: an exact name first, else the longest wildcard,
else nothing.  With names distinct across scopes their order changes nothing,
and a scope that misses the name may be appended freely. -/
theorem matchScopes_precedence (scopes : List WrittenScope) (sni : Bytes) :
    (∀ r, matchScopes (scopes.map WrittenScope.scope) sni = r ↔
      Selected scopes sni r) ∧
    (scopes.Pairwise Distinct → ∀ scopes', scopes.Perm scopes' →
      matchScopes (scopes'.map WrittenScope.scope) sni =
        matchScopes (scopes.map WrittenScope.scope) sni) ∧
    (∀ s, Misses sni s →
      matchScopes ((scopes ++ [s]).map WrittenScope.scope) sni =
        matchScopes (scopes.map WrittenScope.scope) sni) := by
  have hselected := selected_matchScopes scopes sni
  constructor
  · intro r
    constructor
    · rintro rfl
      exact hselected
    · exact fun h => h.matchScopes_eq
  constructor
  · intro hdistinct scopes' hperm
    exact (hselected.perm hperm hdistinct).matchScopes_eq
  · intro s hs
    exact (hselected.append hs).matchScopes_eq

end Precedence

end Ppv2Auth
