/-
Depth-first collection over named lists.  An item may refer to a list by name;
the walk opens every list it meets once, skips it afterwards, and collects the
items that refer to nothing known.  The walk is run on fuel and described
without it, and the two agree as soon as there is more fuel than unseen names.
-/
import Mathlib

namespace Ppv2Auth

namespace Traversal

universe u v

variable {α : Type u} {κ : Type v}

/-- What has been collected and which names have been opened. -/
structure Walk (α : Type u) (κ : Type v) where
  out : List α
  seen : List κ

variable (ref : α → Option κ) (lists : κ → Option (List α))

/-- The name and the list an item leads to, when the name is known. -/
def target (a : α) : Option (κ × List α) :=
  (ref a).bind fun k => (lists k).map fun members => (k, members)

/-- One item.  Every nested level opens one more name. -/
def walk [DecidableEq κ] : Nat → Walk α κ → α → Walk α κ
  | 0, w, _ => w
  | fuel + 1, w, a =>
      match target ref lists a with
      | some (k, members) =>
          if k ∈ w.seen then w
          else members.foldl (walk fuel) { w with seen := k :: w.seen }
      | none => { w with out := w.out ++ [a] }

/-- The walk over a list of items as a relation, without fuel. -/
inductive Walks : Walk α κ → List α → Walk α κ → Prop where
  | done {w : Walk α κ} : Walks w [] w
  | collect {w w' : Walk α κ} {a : α} {rest : List α}
      (hleaf : target ref lists a = none)
      (hrest : Walks { w with out := w.out ++ [a] } rest w') :
      Walks w (a :: rest) w'
  | skip {w w' : Walk α κ} {a : α} {rest : List α} {k : κ} {members : List α}
      (htarget : target ref lists a = some (k, members)) (hseen : k ∈ w.seen)
      (hrest : Walks w rest w') : Walks w (a :: rest) w'
  | opened {w m w' : Walk α κ} {a : α} {rest : List α} {k : κ}
      {members : List α} (htarget : target ref lists a = some (k, members))
      (hfresh : k ∉ w.seen)
      (hmembers : Walks { w with seen := k :: w.seen } members m)
      (hrest : Walks m rest w') : Walks w (a :: rest) w'

/-- One item leads to another. -/
def Link (a b : α) : Prop :=
  ∃ k members, target ref lists a = some (k, members) ∧ b ∈ members

/-- An item can be reached from a list. -/
def Reachable (entry : List α) (b : α) : Prop :=
  ∃ a ∈ entry, Relation.ReflTransGen (Link ref lists) a b

/-- The items of a list that lead nowhere. -/
def leaves (items : List α) : List α :=
  items.filter fun a => (target ref lists a).isNone

/-- The names still unseen among all there are. -/
def unseen [DecidableEq κ] (names seen : List κ) : Nat :=
  names.countP fun k => k ∉ seen

variable {ref lists}

theorem target_eq_some_iff {a : α} {k : κ} {members : List α} :
    target ref lists a = some (k, members) ↔
      ref a = some k ∧ lists k = some members := by
  simp only [target, Option.bind_eq_some_iff, Option.map_eq_some_iff,
    Prod.mk.injEq]
  constructor
  · rintro ⟨k, hk, members, hmembers, rfl, rfl⟩
    exact ⟨hk, hmembers⟩
  · rintro ⟨hk, hmembers⟩
    exact ⟨k, hk, members, hmembers, rfl, rfl⟩

theorem unseen_cons_lt [DecidableEq κ] {names seen : List κ} {k : κ}
    (hk : k ∈ names) (hfresh : k ∉ seen) :
    unseen names (k :: seen) < unseen names seen := by
  unfold unseen
  induction names with
  | nil => simp at hk
  | cons name rest ih =>
      have hle : rest.countP (fun x => x ∉ k :: seen) ≤
          rest.countP fun x => x ∉ seen := by
        apply List.countP_mono_left
        intro x _ hx
        simp only [decide_eq_true_eq] at hx ⊢
        exact fun hmem => hx (List.mem_cons_of_mem k hmem)
      rw [List.countP_cons, List.countP_cons]
      by_cases hname : name = k
      · subst hname
        simp only [List.mem_cons_self, not_true_eq_false, decide_false,
          Bool.false_eq_true, ↓reduceIte, hfresh, not_false_eq_true, decide_true]
        omega
      · have hrest := ih ((List.mem_cons.mp hk).resolve_left (Ne.symm hname))
        have hsame : (name ∉ k :: seen) ↔ name ∉ seen := by simp [hname]
        simp only [hsame]
        omega

theorem unseen_le_of_subset [DecidableEq κ] {names seen seen' : List κ}
    (hsubset : seen ⊆ seen') : unseen names seen' ≤ unseen names seen := by
  apply List.countP_mono_left
  intro x _ hx
  simp only [decide_eq_true_eq] at hx ⊢
  exact fun hmem => hx (hsubset hmem)

theorem walk_leaf [DecidableEq κ] (fuel : Nat) (w : Walk α κ) {a : α}
    (hleaf : target ref lists a = none) :
    walk ref lists (fuel + 1) w a = { w with out := w.out ++ [a] } := by
  simp [walk, hleaf]

theorem walk_seen [DecidableEq κ] (fuel : Nat) {w : Walk α κ} {a : α} {k : κ}
    {members : List α} (htarget : target ref lists a = some (k, members))
    (hseen : k ∈ w.seen) : walk ref lists (fuel + 1) w a = w := by
  simp [walk, htarget, hseen]

theorem walk_fresh [DecidableEq κ] (fuel : Nat) {w : Walk α κ} {a : α} {k : κ}
    {members : List α} (htarget : target ref lists a = some (k, members))
    (hfresh : k ∉ w.seen) :
    walk ref lists (fuel + 1) w a =
      members.foldl (walk ref lists fuel) { w with seen := k :: w.seen } := by
  simp [walk, htarget, hfresh]

theorem Walks.seen_subset {w w' : Walk α κ} {items : List α}
    (h : Walks ref lists w items w') : w.seen ⊆ w'.seen := by
  induction h with
  | done => exact List.Subset.refl _
  | collect _ _ ih => exact ih
  | skip _ _ _ ih => exact ih
  | @opened w m w' a rest k members _ _ _ _ ihmembers ihrest =>
      apply List.Subset.trans _ ihrest
      apply List.Subset.trans _ ihmembers
      exact List.subset_cons_self k w.seen

section Total

variable [DecidableEq κ] {names : List κ}

theorem exists_walks (hnames : ∀ k members, lists k = some members → k ∈ names)
    (w : Walk α κ) (items : List α) : ∃ w', Walks ref lists w items w' := by
  -- Opening a name leaves fewer unseen ones, whatever its list holds.
  induction hn : unseen names w.seen using Nat.strong_induction_on
    generalizing w items with
  | _ n ih =>
      induction items generalizing w with
      | nil => exact ⟨w, .done⟩
      | cons a rest ihrest =>
          cases htarget : target ref lists a with
          | none =>
              obtain ⟨w', hw'⟩ := ihrest { w with out := w.out ++ [a] } hn
              exact ⟨w', .collect htarget hw'⟩
          | some found =>
              obtain ⟨k, members⟩ := found
              by_cases hseen : k ∈ w.seen
              · obtain ⟨w', hw'⟩ := ihrest w hn
                exact ⟨w', .skip htarget hseen hw'⟩
              · have hk := hnames k members (target_eq_some_iff.mp htarget).2
                have hless := unseen_cons_lt hk hseen
                obtain ⟨m, hm⟩ := ih _ (hn ▸ hless)
                  { w with seen := k :: w.seen } members rfl
                have hmless := (unseen_le_of_subset hm.seen_subset).trans_lt hless
                obtain ⟨w', hw'⟩ := ih _ (hn ▸ hmless) m rest rfl
                exact ⟨w', .opened htarget hseen hm hw'⟩

/-- With more fuel than unseen names the walk does what the relation says. -/
theorem Walks.foldl_walk (hnames : ∀ k members, lists k = some members → k ∈ names)
    {w w' : Walk α κ} {items : List α} (h : Walks ref lists w items w')
    {fuel : Nat} (hfuel : unseen names w.seen < fuel) :
    items.foldl (walk ref lists fuel) w = w' := by
  induction h generalizing fuel with
  | done => rfl
  | collect hleaf _ ih =>
      obtain ⟨fuel, rfl⟩ := Nat.exists_eq_add_one_of_ne_zero (Nat.ne_zero_of_lt hfuel)
      rw [List.foldl_cons, walk_leaf fuel _ hleaf]
      exact ih hfuel
  | skip htarget hseen _ ih =>
      obtain ⟨fuel, rfl⟩ := Nat.exists_eq_add_one_of_ne_zero (Nat.ne_zero_of_lt hfuel)
      rw [List.foldl_cons, walk_seen fuel htarget hseen]
      exact ih hfuel
  | opened htarget hfresh hmembers _ ihmembers ihrest =>
      obtain ⟨fuel, rfl⟩ := Nat.exists_eq_add_one_of_ne_zero (Nat.ne_zero_of_lt hfuel)
      have hk := hnames _ _ (target_eq_some_iff.mp htarget).2
      have hless := unseen_cons_lt hk hfresh
      rw [List.foldl_cons, walk_fresh fuel htarget hfresh,
        ihmembers (hless.trans_le (Nat.lt_succ_iff.mp hfuel))]
      apply ihrest
      exact ((unseen_le_of_subset hmembers.seen_subset).trans_lt hless).trans hfuel

end Total

theorem Walks.unique {w w₁ w₂ : Walk α κ} {items : List α}
    (h₁ : Walks ref lists w items w₁) (h₂ : Walks ref lists w items w₂) :
    w₁ = w₂ := by
  induction h₁ generalizing w₂ with
  | done =>
      cases h₂
      rfl
  | collect hleaf _ ih =>
      cases h₂ with
      | collect _ hrest => exact ih hrest
      | skip htarget => simp [hleaf] at htarget
      | opened htarget => simp [hleaf] at htarget
  | skip htarget hseen _ ih =>
      cases h₂ with
      | collect hleaf => simp [hleaf] at htarget
      | skip _ _ hrest => exact ih hrest
      | opened htarget' hfresh =>
          rw [htarget] at htarget'
          cases htarget'
          exact absurd hseen hfresh
  | opened htarget hfresh _ _ ihmembers ihrest =>
      cases h₂ with
      | collect hleaf => simp [hleaf] at htarget
      | skip htarget' hseen =>
          rw [htarget] at htarget'
          cases htarget'
          exact absurd hseen hfresh
      | opened htarget' _ hmembers hrest =>
          rw [htarget] at htarget'
          cases htarget'
          cases ihmembers hmembers
          exact ihrest hrest

/-- The items of a known name, and none for an unknown one. -/
def itemsOf (lists : κ → Option (List α)) (k : κ) : List α :=
  (lists k).getD []

/-- What one walk over `items` has done, given the names it has opened. -/
structure Account (ref : α → Option κ) (lists : κ → Option (List α))
    (w : Walk α κ) (items : List α) (w' : Walk α κ) (opened : List κ) : Prop where
  seen : w'.seen = opened ++ w.seen
  known : ∀ k ∈ opened, (lists k).isSome
  out : w'.out.Perm (w.out ++ (leaves ref lists items ++
    opened.flatMap fun k => leaves ref lists (itemsOf lists k)))
  /-- Whatever the items lead to has been seen. -/
  entry : ∀ a ∈ items, ∀ k members, target ref lists a = some (k, members) →
    k ∈ w'.seen
  /-- So has whatever the opened lists lead to. -/
  closed : ∀ k ∈ opened, ∀ a ∈ itemsOf lists k, ∀ k' members,
    target ref lists a = some (k', members) → k' ∈ w'.seen
  reached : ∀ k ∈ opened, ∃ a, Reachable ref lists items a ∧ ref a = some k

theorem itemsOf_of_target {a : α} {k : κ} {members : List α}
    (htarget : target ref lists a = some (k, members)) :
    itemsOf lists k = members := by
  simp [itemsOf, (target_eq_some_iff.mp htarget).2]

theorem Reachable.of_mem {items : List α} {a : α} (ha : a ∈ items) :
    Reachable ref lists items a :=
  ⟨a, ha, .refl⟩

theorem Reachable.mono {items items' : List α} {a : α}
    (hsubset : items ⊆ items') (ha : Reachable ref lists items a) :
    Reachable ref lists items' a := by
  obtain ⟨b, hb, hpath⟩ := ha
  exact ⟨b, hsubset hb, hpath⟩

theorem Reachable.link {items : List α} {a b : α}
    (ha : Reachable ref lists items a) (hlink : Link ref lists a b) :
    Reachable ref lists items b := by
  obtain ⟨c, hc, hpath⟩ := ha
  exact ⟨c, hc, hpath.tail hlink⟩

/-- What is reached inside the list of an item is reached from the item. -/
theorem Reachable.of_members {items members : List α} {a b : α} {k : κ}
    (ha : a ∈ items) (htarget : target ref lists a = some (k, members))
    (hb : Reachable ref lists members b) : Reachable ref lists items b := by
  obtain ⟨c, hc, hpath⟩ := hb
  exact ⟨a, ha, .head ⟨k, members, htarget, hc⟩ hpath⟩

theorem leaves_cons_of_none {a : α} (rest : List α)
    (hleaf : target ref lists a = none) :
    leaves ref lists (a :: rest) = a :: leaves ref lists rest := by
  simp [leaves, hleaf]

theorem leaves_cons_of_some {a : α} (rest : List α) {found : κ × List α}
    (htarget : target ref lists a = some found) :
    leaves ref lists (a :: rest) = leaves ref lists rest := by
  simp [leaves, htarget]

theorem Account.nil (w : Walk α κ) : Account ref lists w [] w [] :=
  ⟨rfl, by simp, by simp [leaves], by simp, by simp, by simp⟩

theorem Account.collect {w w' : Walk α κ} {a : α} {rest : List α}
    {opened : List κ} (hleaf : target ref lists a = none)
    (hacc : Account ref lists { w with out := w.out ++ [a] } rest w' opened) :
    Account ref lists w (a :: rest) w' opened := by
  constructor
  · exact hacc.seen
  · exact hacc.known
  · rw [leaves_cons_of_none rest hleaf]
    simpa using hacc.out
  · intro b hb k members htarget
    rcases List.mem_cons.mp hb with rfl | hb
    · simp [hleaf] at htarget
    · exact hacc.entry b hb k members htarget
  · exact hacc.closed
  · intro k hk
    obtain ⟨b, hb, href⟩ := hacc.reached k hk
    exact ⟨b, hb.mono (List.subset_cons_self a rest), href⟩

theorem Account.skip {w w' : Walk α κ} {a : α} {rest : List α} {k : κ}
    {members : List α} {opened : List κ}
    (htarget : target ref lists a = some (k, members)) (hseen : k ∈ w.seen)
    (hacc : Account ref lists w rest w' opened) :
    Account ref lists w (a :: rest) w' opened := by
  constructor
  · exact hacc.seen
  · exact hacc.known
  · rw [leaves_cons_of_some rest htarget]
    exact hacc.out
  · intro b hb k' members' htarget'
    rcases List.mem_cons.mp hb with rfl | hb
    · rw [htarget] at htarget'
      cases htarget'
      rw [hacc.seen]
      exact List.mem_append_right opened hseen
    · exact hacc.entry b hb k' members' htarget'
  · exact hacc.closed
  · intro k' hk'
    obtain ⟨b, hb, href⟩ := hacc.reached k' hk'
    exact ⟨b, hb.mono (List.subset_cons_self a rest), href⟩

theorem Account.opened {w m w' : Walk α κ} {a : α} {rest : List α} {k : κ}
    {members : List α} {inner outer : List κ}
    (htarget : target ref lists a = some (k, members))
    (hinner : Account ref lists { w with seen := k :: w.seen } members m inner)
    (houter : Account ref lists m rest w' outer) :
    Account ref lists w (a :: rest) w' (outer ++ inner ++ [k]) := by
  have hitems := itemsOf_of_target htarget
  have hlater : ∀ x ∈ m.seen, x ∈ w'.seen := by
    intro x hx
    rw [houter.seen]
    exact List.mem_append_right outer hx
  have hk : k ∈ m.seen := by
    rw [hinner.seen]
    exact List.mem_append_right inner List.mem_cons_self
  have hsplit : ∀ x ∈ outer ++ inner ++ [k], x ∈ outer ∨ x ∈ inner ∨ x = k := by
    simp
  constructor
  · rw [houter.seen, hinner.seen]
    simp
  · intro x hx
    rcases hsplit x hx with hx | hx | rfl
    · exact houter.known x hx
    · exact hinner.known x hx
    · simp [(target_eq_some_iff.mp htarget).2]
  · rw [leaves_cons_of_some rest htarget]
    apply houter.out.trans
    apply (hinner.out.append_right _).trans
    simp only [List.flatMap_append, List.flatMap_cons, List.flatMap_nil,
      List.append_nil, hitems, List.append_assoc, List.perm_append_left_iff]
    rw [← Multiset.coe_eq_coe]
    simp only [← Multiset.coe_add]
    abel
  · intro b hb k' members' htarget'
    rcases List.mem_cons.mp hb with rfl | hb
    · rw [htarget] at htarget'
      cases htarget'
      exact hlater k hk
    · exact houter.entry b hb k' members' htarget'
  · intro x hx b hb k' members' htarget'
    rcases hsplit x hx with hx | hx | rfl
    · exact houter.closed x hx b hb k' members' htarget'
    · exact hlater k' (hinner.closed x hx b hb k' members' htarget')
    · rw [hitems] at hb
      exact hlater k' (hinner.entry b hb k' members' htarget')
  · intro x hx
    rcases hsplit x hx with hx | hx | rfl
    · obtain ⟨b, hb, href⟩ := houter.reached x hx
      exact ⟨b, hb.mono (List.subset_cons_self a rest), href⟩
    · obtain ⟨b, hb, href⟩ := hinner.reached x hx
      exact ⟨b, hb.of_members List.mem_cons_self htarget, href⟩
    · exact ⟨a, .of_mem List.mem_cons_self, (target_eq_some_iff.mp htarget).1⟩

/-- Every walk accounts for the names it has opened and for its output. -/
theorem Walks.exists_account {w w' : Walk α κ} {items : List α}
    (h : Walks ref lists w items w') :
    ∃ opened, Account ref lists w items w' opened := by
  induction h with
  | @done w => exact ⟨[], .nil w⟩
  | collect hleaf _ ih =>
      obtain ⟨opened, hacc⟩ := ih
      exact ⟨opened, hacc.collect hleaf⟩
  | skip htarget hseen _ ih =>
      obtain ⟨opened, hacc⟩ := ih
      exact ⟨opened, hacc.skip htarget hseen⟩
  | opened htarget _ _ _ ihmembers ihrest =>
      obtain ⟨inner, hinner⟩ := ihmembers
      obtain ⟨outer, houter⟩ := ihrest
      exact ⟨_, .opened htarget hinner houter⟩

/-- No name is opened twice. -/
theorem Walks.seen_nodup {w w' : Walk α κ} {items : List α}
    (h : Walks ref lists w items w') (hw : w.seen.Nodup) : w'.seen.Nodup := by
  induction h with
  | done => exact hw
  | collect _ _ ih => exact ih hw
  | skip _ _ _ ih => exact ih hw
  | opened _ hfresh _ _ ihmembers ihrest =>
      apply ihrest
      apply ihmembers
      exact List.nodup_cons.mpr ⟨hfresh, hw⟩

section Fresh

variable {items : List α} {w : Walk α κ}

theorem mem_leaves {a : α} :
    a ∈ leaves ref lists items ↔ a ∈ items ∧ target ref lists a = none := by
  simp [leaves]

/-- A walk that starts with nothing seen collects exactly the items it can
reach that lead nowhere. -/
theorem Walks.mem_out_iff (h : Walks ref lists ⟨[], []⟩ items w) {b : α} :
    b ∈ w.out ↔ Reachable ref lists items b ∧ target ref lists b = none := by
  obtain ⟨opened, hacc⟩ := h.exists_account
  have hseen : w.seen = opened := by simpa using hacc.seen
  have hout : b ∈ w.out ↔ b ∈ leaves ref lists items ∨
      ∃ k ∈ opened, b ∈ leaves ref lists (itemsOf lists k) := by
    rw [hacc.out.mem_iff]
    simp
  rw [hout]
  constructor
  · rintro (hb | ⟨k, hk, hb⟩)
    · exact ⟨.of_mem (mem_leaves.mp hb).1, (mem_leaves.mp hb).2⟩
    · obtain ⟨a, ha, href⟩ := hacc.reached k hk
      obtain ⟨members, hmembers⟩ := Option.isSome_iff_exists.mp (hacc.known k hk)
      have htarget := target_eq_some_iff.mpr ⟨href, hmembers⟩
      rw [itemsOf_of_target htarget] at hb
      exact ⟨ha.link ⟨k, members, htarget, (mem_leaves.mp hb).1⟩, (mem_leaves.mp hb).2⟩
  · rintro ⟨⟨a, ha, hpath⟩, hleaf⟩
    -- Whatever is reached stands in the entry or in an opened list.
    have hplace : b ∈ items ∨ ∃ k ∈ opened, b ∈ itemsOf lists k := by
      clear hleaf hout
      induction hpath with
      | refl => exact Or.inl ha
      | tail _ hlink ih =>
          obtain ⟨k, members, htarget, hmem⟩ := hlink
          right
          refine ⟨k, ?_, by rwa [itemsOf_of_target htarget]⟩
          rw [← hseen]
          rcases ih with hc | ⟨k', hk', hc⟩
          · exact hacc.entry _ hc k members htarget
          · exact hacc.closed k' hk' _ hc k members htarget
    rcases hplace with hb | ⟨k, hk, hb⟩
    · exact Or.inl (mem_leaves.mpr ⟨hb, hleaf⟩)
    · exact Or.inr ⟨k, hk, mem_leaves.mpr ⟨hb, hleaf⟩⟩

end Fresh

/-- The same names, each with the same items, in any order and number. -/
def SameItems (lists lists' : κ → Option (List α)) : Prop :=
  ∀ k, Option.Rel (fun members members' => ∀ a, a ∈ members ↔ a ∈ members')
    (lists k) (lists' k)

section Order

variable {lists' : κ → Option (List α)}

theorem SameItems.symm (h : SameItems lists lists') : SameItems lists' lists := by
  intro k
  have hrel := h k
  generalize lists k = members at hrel ⊢
  generalize lists' k = members' at hrel ⊢
  cases hrel with
  | none => exact .none
  | some hmem => exact .some fun a => (hmem a).symm

theorem SameItems.exists_members (h : SameItems lists lists') {k : κ}
    {members : List α} (hk : lists k = some members) :
    ∃ members', lists' k = some members' ∧ ∀ a, a ∈ members ↔ a ∈ members' := by
  have hrel := h k
  rw [hk] at hrel
  generalize lists' k = other at hrel
  cases hrel with
  | some hmem => exact ⟨_, rfl, hmem⟩

theorem SameItems.link (h : SameItems lists lists') {a b : α}
    (hlink : Link ref lists a b) : Link ref lists' a b := by
  obtain ⟨k, members, htarget, hb⟩ := hlink
  obtain ⟨href, hk⟩ := target_eq_some_iff.mp htarget
  obtain ⟨members', hk', hmem⟩ := h.exists_members hk
  exact ⟨k, members', target_eq_some_iff.mpr ⟨href, hk'⟩, (hmem b).mp hb⟩

theorem SameItems.reachable (h : SameItems lists lists') {items items' : List α}
    (hitems : ∀ a, a ∈ items → a ∈ items') {b : α}
    (hb : Reachable ref lists items b) : Reachable ref lists' items' b := by
  obtain ⟨a, ha, hpath⟩ := hb
  exact ⟨a, hitems a ha, hpath.lift id fun _ _ hlink => h.link hlink⟩

theorem SameItems.target_eq_none (h : SameItems lists lists') {a : α}
    (hleaf : target ref lists a = none) : target ref lists' a = none := by
  by_contra hsome
  obtain ⟨⟨k, members'⟩, htarget⟩ := Option.ne_none_iff_exists'.mp hsome
  obtain ⟨href, hk'⟩ := target_eq_some_iff.mp htarget
  obtain ⟨members, hk, _⟩ := h.symm.exists_members hk'
  simp [target_eq_some_iff.mpr ⟨href, hk⟩] at hleaf

end Order

end Traversal

end Ppv2Auth
