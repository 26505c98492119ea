/-
The string operations of Rust's standard library that the module relies on.
A `&str` is its UTF-8 bytes, and every separator and digit involved is ASCII,
so each operation works on bytes.
-/
import Ppv2Auth.Support.Radix

namespace Ppv2Auth

namespace Rust

/-- `str::split_once` at an ASCII character. -/
def splitOnce (sep : UInt8) : Bytes → Option (Bytes × Bytes)
  | [] => none
  | c :: rest =>
      if c = sep then some ([], rest)
      else (splitOnce sep rest).map fun (left, right) => (c :: left, right)

/-- `str::strip_prefix`. -/
def stripPrefix (pre text : Bytes) : Option Bytes :=
  if pre.isPrefixOf text then some (text.drop pre.length) else none

/-- `str::to_ascii_lowercase`, byte by byte. -/
def asciiLower (c : UInt8) : UInt8 :=
  if 65 ≤ c ∧ c ≤ 90 then c + 32 else c

/-- The UTF-8 encodings of the characters `str::trim` removes: those with the
Unicode property White_Space. -/
def whiteSpace : List Bytes :=
  [[0x09], [0x0a], [0x0b], [0x0c], [0x0d], [0x20], [0xc2, 0x85], [0xc2, 0xa0],
    [0xe1, 0x9a, 0x80], [0xe2, 0x80, 0x80], [0xe2, 0x80, 0x81],
    [0xe2, 0x80, 0x82], [0xe2, 0x80, 0x83], [0xe2, 0x80, 0x84],
    [0xe2, 0x80, 0x85], [0xe2, 0x80, 0x86], [0xe2, 0x80, 0x87],
    [0xe2, 0x80, 0x88], [0xe2, 0x80, 0x89], [0xe2, 0x80, 0x8a],
    [0xe2, 0x80, 0xa8], [0xe2, 0x80, 0xa9], [0xe2, 0x80, 0xaf],
    [0xe2, 0x81, 0x9f], [0xe3, 0x80, 0x80]]

/-- Strip matching prefixes, at most `fuel` of them. -/
def trimStartWith (blanks : List Bytes) : Nat → Bytes → Bytes
  | 0, text => text
  | fuel + 1, text =>
      match blanks.findSome? (stripPrefix · text) with
      | some rest => trimStartWith blanks fuel rest
      | none => text

/-- `str::trim`.  Every blank is at least one byte long, so the length of the
text is fuel enough. -/
def trim (text : Bytes) : Bytes :=
  let front := trimStartWith whiteSpace text.length text
  (trimStartWith (whiteSpace.map List.reverse) front.length front.reverse).reverse

/-- `FromStr` for the unsigned integer type whose largest value is `max`: an
optional `+`, then one or more decimal digits. -/
def parseUnsigned (max : Nat) (text : Bytes) : Option Nat :=
  let digits := match text with
    | [] => []
    | c :: rest => if c = 43 ∧ rest ≠ [] then rest else text
  if digits ≠ [] ∧ digits.all (fun c => (Radix.toDigit 10 c).isSome) then
    some (Radix.valueOf 10 digits) |>.filter (· ≤ max)
  else none

def parseU8 : Bytes → Option Nat := parseUnsigned 255

def parseU16 (text : Bytes) : Option UInt16 :=
  (parseUnsigned 65535 text).map UInt16.ofNat

def parseU32 : Bytes → Option Nat := parseUnsigned 4294967295

/-- `Display` for unsigned integers. -/
def decimal (n : Nat) : Bytes := Radix.print 10 n

/-- The cut is at the first separator. -/
theorem splitOnce_eq_some_iff {sep : UInt8} {text left right : Bytes} :
    splitOnce sep text = some (left, right) ↔
      text = left ++ sep :: right ∧ sep ∉ left := by
  induction text generalizing left with
  | nil => simp [splitOnce]
  | cons c rest ih =>
      by_cases hc : c = sep
      · subst hc
        simp only [splitOnce, ↓reduceIte, Option.some.injEq, Prod.mk.injEq]
        constructor
        · rintro ⟨rfl, rfl⟩
          simp
        · rintro ⟨htext, hleft⟩
          cases left with
          | nil => simpa using htext
          | cons d left =>
              simp only [List.cons_append, List.cons.injEq] at htext
              exact absurd (htext.1 ▸ List.mem_cons_self) hleft
      · simp only [splitOnce, hc, ↓reduceIte, Option.map_eq_some_iff,
          Prod.mk.injEq, Prod.exists]
        constructor
        · rintro ⟨l, r, hsplit, rfl, rfl⟩
          obtain ⟨htext, hl⟩ := ih.mp hsplit
          exact ⟨by simp [htext], by simp [hl, Ne.symm hc]⟩
        · rintro ⟨htext, hleft⟩
          cases left with
          | nil => simp_all
          | cons d left =>
              simp only [List.cons_append, List.cons.injEq] at htext
              obtain ⟨rfl, hrest⟩ := htext
              refine ⟨left, right, ih.mpr ⟨hrest, ?_⟩, rfl, rfl⟩
              exact fun hmem => hleft (List.mem_cons_of_mem c hmem)

theorem splitOnce_eq_none_iff {sep : UInt8} {text : Bytes} :
    splitOnce sep text = none ↔ sep ∉ text := by
  induction text with
  | nil => simp [splitOnce]
  | cons c rest ih =>
      by_cases hc : c = sep
      · simp [splitOnce, hc]
      · simp [splitOnce, hc, ih, Ne.symm hc]

theorem splitOnce_append {sep : UInt8} {left right : Bytes}
    (hleft : sep ∉ left) :
    splitOnce sep (left ++ sep :: right) = some (left, right) :=
  splitOnce_eq_some_iff.mpr ⟨rfl, hleft⟩

section Pieces

variable {α : Type} {p : α → Bool} {text piece : List α}

/-- The text begins with the piece, up to a separator or the end. -/
theorem eq_takeWhile_iff : piece = text.takeWhile (fun c => !p c) ↔
    ∃ right, text = piece ++ right ∧ (∀ c ∈ piece, p c = false) ∧ ∀ c ∈ right.head?, p c := by
  constructor
  · rintro rfl
    refine ⟨_, List.takeWhile_append_dropWhile.symm, ?_, ?_⟩
    · intro c hc
      simpa using List.mem_takeWhile_imp hc
    · intro c hc
      have hstop := List.head?_dropWhile_not (fun c => !p c) text
      rw [hc] at hstop
      simpa using hstop
  · rintro ⟨right, rfl, hpiece, hright⟩
    have hnone : right.takeWhile (fun c => !p c) = [] := by
      cases right with
      | nil => rfl
      | cons c right => simp [hright c rfl]
    rw [List.takeWhile_append_of_pos (by simpa using hpiece), hnone, List.append_nil]

/-- The first piece comes before any separator, each other one behind one. -/
theorem splitOnP_eq (text : List α) : ∃ later, text.splitOnP p =
    text.takeWhile (fun c => !p c) :: later ∧
      ∀ piece, piece ∈ later ↔ ∃ left sep rest, text = left ++ sep :: rest ∧ p sep ∧
        piece = rest.takeWhile fun c => !p c := by
  induction text with
  | nil => exact ⟨[], by simp⟩
  | cons x text ih =>
      obtain ⟨later, hsplit, hlater⟩ := ih
      rw [List.splitOnP_cons_eq_if_modifyHead, hsplit]
      cases hx : p x with
      | true =>
          refine ⟨text.takeWhile (fun c => !p c) :: later, by simp [hx], fun piece => ?_⟩
          rw [List.mem_cons, hlater]
          constructor
          · rintro (rfl | ⟨left, sep, rest, rfl, hsep, rfl⟩)
            · exact ⟨[], x, text, rfl, hx, rfl⟩
            · exact ⟨x :: left, sep, rest, rfl, hsep, rfl⟩
          · rintro ⟨left, sep, rest, htext, hsep, rfl⟩
            rcases List.cons_eq_append_iff.mp htext with ⟨rfl, hrest⟩ | ⟨left, rfl, hleft⟩
            · cases hrest
              exact Or.inl rfl
            · exact Or.inr ⟨left, sep, rest, hleft, hsep, rfl⟩
      | false =>
          refine ⟨later, by simp [hx], fun piece => ?_⟩
          rw [hlater]
          constructor
          · rintro ⟨left, sep, rest, rfl, hsep, rfl⟩
            exact ⟨x :: left, sep, rest, rfl, hsep, rfl⟩
          · rintro ⟨left, sep, rest, htext, hsep, rfl⟩
            rcases List.cons_eq_append_iff.mp htext with ⟨rfl, hrest⟩ | ⟨left, rfl, hleft⟩
            · cases hrest
              rw [hx] at hsep
              cases hsep
            · exact ⟨left, sep, rest, hleft, hsep, rfl⟩

/-- The pieces `str::split` cuts a text into lie between separators or ends. -/
theorem mem_splitOnP_iff : piece ∈ text.splitOnP p ↔ ∃ left right,
    text = left ++ piece ++ right ∧ (∀ c ∈ piece, p c = false) ∧
      (∀ c ∈ left.getLast?, p c) ∧ ∀ c ∈ right.head?, p c := by
  obtain ⟨later, hsplit, hlater⟩ := splitOnP_eq (p := p) text
  rw [hsplit, List.mem_cons, hlater, eq_takeWhile_iff]
  simp only [eq_takeWhile_iff]
  constructor
  · rintro (⟨right, rfl, hpiece, hright⟩ | ⟨left, sep, rest, rfl, hsep, right, rfl, hpiece, hright⟩)
    · exact ⟨[], right, rfl, hpiece, by simp, hright⟩
    · exact ⟨left ++ [sep], right, by simp, hpiece, by simpa using hsep, hright⟩
  · rintro ⟨left, right, rfl, hpiece, hleft, hright⟩
    rcases List.eq_nil_or_concat left with rfl | ⟨front, sep, rfl⟩
    · exact Or.inl ⟨right, rfl, hpiece, hright⟩
    · exact Or.inr ⟨front, sep, piece ++ right, by simp, hleft sep (by simp), right, rfl,
        hpiece, hright⟩

end Pieces

theorem decimal_eq_digits (n : Nat) :
    ∀ c ∈ decimal n, (Radix.toDigit 10 c).isSome := fun _ hc =>
  Radix.isSome_toDigit_of_mem_print (by omega) (by omega) hc

/-- A printed integer reads back, when the type can hold it. -/
theorem parseUnsigned_decimal {max n : Nat} (hn : n ≤ max) :
    parseUnsigned max (decimal n) = some n := by
  have hdigits := decimal_eq_digits n
  have hne : decimal n ≠ [] := Radix.print_ne_nil n
  have hplus : (match decimal n with
      | [] => []
      | c :: rest => if c = 43 ∧ rest ≠ [] then rest else decimal n) =
      decimal n := by
    cases htext : decimal n with
    | nil => rfl
    | cons c rest =>
        have hc := hdigits c (htext ▸ List.mem_cons_self)
        have hc43 : c ≠ 43 := by
          rintro rfl
          simp [Radix.toDigit] at hc
        simp [hc43]
  have hvalue : Radix.valueOf 10 (decimal n) = n :=
    Radix.valueOf_print (by omega) (by omega) n
  have hall : (decimal n).all (fun c => (Radix.toDigit 10 c).isSome) = true :=
    List.all_eq_true.mpr hdigits
  simp only [parseUnsigned, hplus, hne, ne_eq, not_false_eq_true, hall,
    and_self, ↓reduceIte, hvalue]
  simp [hn]

section Collect

universe u v

variable {ε ε' : Type u} {α β : Type v} {f : α → Except ε β}

theorem bind_eq_ok_iff {x : Except ε α} {y : β} :
    x >>= f = .ok y ↔ ∃ a, x = .ok a ∧ f a = .ok y := by
  cases x with
  | error e => simp [bind, Except.bind]
  | ok a => simp [bind, Except.bind]

theorem mapError_eq_ok_iff {g : ε → ε'} {x : Except ε α} {a : α} :
    x.mapError g = .ok a ↔ x = .ok a := by
  cases x with
  | error e => simp [Except.mapError]
  | ok a => simp [Except.mapError]

theorem map_eq_ok_iff {g : α → β} {x : Except ε α} {y : β} :
    x.map g = .ok y ↔ ∃ a, x = .ok a ∧ g a = y := by
  cases x with
  | error e => simp [Except.map]
  | ok a => simp [Except.map]

/-- A collected list is read off element by element. -/
theorem mapM_eq_ok_iff {xs : List α} {ys : List β} :
    xs.mapM f = .ok ys ↔ List.Forall₂ (fun x y => f x = .ok y) xs ys := by
  induction xs generalizing ys with
  | nil =>
      rw [List.mapM_nil, List.forall₂_nil_left_iff]
      exact ⟨fun h => (Except.ok.inj h).symm, fun h => h ▸ rfl⟩
  | cons x rest ih =>
      rw [List.mapM_cons, List.forall₂_cons_left_iff]
      cases hx : f x with
      | error e => simp [bind, Except.bind]
      | ok y =>
          cases hrest : rest.mapM f with
          | error e =>
              simp only [bind, Except.bind, reduceCtorEq, false_iff]
              rintro ⟨y, ys, -, hys, -⟩
              simp [ih.mpr hys] at hrest
          | ok ys' =>
              have hys := ih.mp hrest
              simp only [bind, Except.bind, pure, Except.pure, Except.ok.injEq]
              constructor
              · rintro rfl
                exact ⟨y, ys', rfl, hys, rfl⟩
              · rintro ⟨z, zs, rfl, hzs, rfl⟩
                rw [ih.mpr hzs] at hrest
                cases hrest
                rfl

/-- Collecting succeeds exactly when every element does. -/
theorem exists_mapM_iff {xs : List α} :
    (∃ ys, xs.mapM f = .ok ys) ↔ ∀ x ∈ xs, ∃ y, f x = .ok y := by
  simp only [mapM_eq_ok_iff]
  induction xs with
  | nil => simp
  | cons x rest ih =>
      simp only [List.forall₂_cons_left_iff, List.forall_mem_cons, ← ih]
      constructor
      · rintro ⟨_, y, ys, hy, hys, rfl⟩
        exact ⟨⟨y, hy⟩, ys, hys⟩
      · rintro ⟨⟨y, hy⟩, ys, hys⟩
        exact ⟨y :: ys, y, ys, hy, hys, rfl⟩

theorem mem_of_mapM {xs : List α} {ys : List β} (h : xs.mapM f = .ok ys) {y : β} :
    y ∈ ys ↔ ∃ x ∈ xs, f x = .ok y := by
  rw [mapM_eq_ok_iff] at h
  induction h with
  | nil => simp
  | @cons x z rest ys hx _ ih =>
      simp only [List.mem_cons, ih, exists_eq_or_imp, hx, Except.ok.injEq]
      rw [eq_comm]

end Collect

end Rust

end Ppv2Auth
