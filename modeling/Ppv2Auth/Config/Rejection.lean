/-
Which tables a carrier rejects, and what it says.  The first thing wrong is
reported: the text, the prefix, then the entries of the sites map in the order
of their keys, each by its key, its sources as they are read and last the
widths only an address set objects to.  Anything else is published.
-/
import Ppv2Auth.Config.Onboarding
import Ppv2Auth.Filters.Factory

namespace Ppv2Auth

namespace Rejection

open Rust Identity Filters Loading

section Collect

variable {ε ε' α β : Type} {f : α → Except ε β}

theorem bind_eq_error_iff {x : Except ε α} {e : ε} :
    x >>= f = .error e ↔ x = .error e ∨ ∃ a, x = .ok a ∧ f a = .error e := by
  cases x with
  | error e' => simp [bind, Except.bind]
  | ok a => simp [bind, Except.bind]

theorem mapError_eq_error_iff {g : ε → ε'} {x : Except ε α} {e : ε'} :
    x.mapError g = .error e ↔ ∃ e', x = .error e' ∧ g e' = e := by
  cases x with
  | error e' => simp [Except.mapError]
  | ok a => simp [Except.mapError]

theorem map_eq_error_iff {g : α → β} {x : Except ε α} {e : ε} :
    x.map g = .error e ↔ x = .error e := by
  cases x with
  | error e' => simp [Except.map]
  | ok a => simp [Except.map]

/-- A list is not collected for its first element that fails. -/
theorem mapM_eq_error_iff {xs : List α} {e : ε} :
    xs.mapM f = .error e ↔ ∃ before x after, xs = before ++ x :: after ∧
      (∀ b ∈ before, ∃ y, f b = .ok y) ∧ f x = .error e := by
  induction xs with
  | nil => simp [pure, Except.pure]
  | cons x rest ih =>
      rw [List.mapM_cons]
      cases hx : f x with
      | error e' =>
          constructor
          · intro h
            cases h
            exact ⟨[], x, rest, rfl, by simp, hx⟩
          · rintro ⟨before, y, after, hsplit, hbefore, hy⟩
            cases before with
            | nil =>
                cases hsplit
                rw [hx] at hy
                cases hy
                rfl
            | cons b before =>
                cases hsplit
                obtain ⟨z, hz⟩ := hbefore x List.mem_cons_self
                rw [hx] at hz
                cases hz
      | ok y =>
          have hrest : (do
              let y ← (.ok y : Except ε β)
              let ys ← rest.mapM f
              pure (y :: ys)) = .error e ↔ rest.mapM f = .error e := by
            cases rest.mapM f with
            | error e' => simp [bind, Except.bind]
            | ok ys => simp [bind, Except.bind, pure, Except.pure]
          rw [hrest, ih]
          constructor
          · rintro ⟨before, z, after, rfl, hbefore, hz⟩
            exact ⟨x :: before, z, after, rfl, by simpa using ⟨⟨y, hx⟩, hbefore⟩, hz⟩
          · rintro ⟨before, z, after, hsplit, hbefore, hz⟩
            cases before with
            | nil =>
                cases hsplit
                rw [hx] at hz
                cases hz
            | cons b before =>
                cases hsplit
                exact ⟨before, z, after, rfl,
                  fun b hb => hbefore b (List.mem_cons_of_mem _ hb), hz⟩

end Collect

/-- A source that cannot be read: what follows its slash is no width, or one an
IPv4 address does not have. -/
inductive Unreadable (s : Bytes) : TableError → Prop where
  | length {a w : Bytes} (hsplit : splitOnce 47 s = some (a, w)) (hw : parseU8 w = none) :
      Unreadable s (.badLength s)
  | above32 {a w : Bytes} {b : Nat} {v4 : Octets 4} (hsplit : splitOnce 47 s = some (a, w))
      (hw : parseU8 w = some b) (hv4 : parseIpv4 a = some v4) (hover : 32 < b) :
      Unreadable s (.lengthAbove32 s)

/-- An IPv6 prefix with a width no address has. -/
def Overwide (s : Bytes) : Prop :=
  ∃ a w b v6, splitOnce 47 s = some (a, w) ∧ parseU8 w = some b ∧ parseIpv6 a = some v6 ∧
    128 < b

theorem classify_eq_error_iff {s : Bytes} {e : TableError} :
    classify s = .error e ↔ Unreadable s e := by
  constructor
  · intro h
    unfold classify at h
    cases hsplit : splitOnce 47 s with
    | none =>
        simp only [hsplit] at h
        cases hv4 : parseIpv4 s with
        | some v4 => simp [bind, Except.bind, hv4] at h
        | none =>
            cases hv6 : parseIpv6 s <;> simp [bind, Except.bind, hv4, hv6] at h
    | some parts =>
        obtain ⟨a, w⟩ := parts
        simp only [hsplit] at h
        cases hw : parseU8 w with
        | none =>
            simp only [hw, bind, Except.bind, Except.error.injEq] at h
            exact h ▸ .length hsplit hw
        | some b =>
            cases hv4 : parseIpv4 a with
            | some v4 =>
                simp only [hw, bind, Except.bind, hv4, Option.getD_some] at h
                split_ifs at h with hover
                cases h
                exact .above32 hsplit hw hv4 hover
            | none =>
                cases hv6 : parseIpv6 a <;> simp [bind, Except.bind, hw, hv4, hv6] at h
  · intro h
    cases h with
    | length hsplit hw => simp [classify, hsplit, hw, bind, Except.bind]
    | above32 hsplit hw hv4 hover =>
        simp [classify, hsplit, hw, hv4, hover, bind, Except.bind]

/-- A source that can be read. -/
theorem exists_classify_iff {s : Bytes} :
    (∃ c, classify s = .ok c) ↔ ∀ e, ¬ Unreadable s e := by
  simp only [← classify_eq_error_iff]
  cases classify s <;> simp

theorem isDigit_ne_plus {c : UInt8} (h : (Radix.toDigit 10 c).isSome) : c ≠ 43 := by
  rintro rfl
  exact absurd h (by decide)

theorem parseUnsigned_of_isDecimal {max n : Nat} {text : Bytes} (h : IsDecimal text n)
    (hle : n ≤ max) : parseUnsigned max text = some n := by
  obtain ⟨digits, hne, hdigits, htext, rfl⟩ := h
  have hread : digits ≠ [] ∧ digits.all (fun c => (Radix.toDigit 10 c).isSome) :=
    ⟨hne, List.all_eq_true.mpr hdigits⟩
  rcases htext with htext | rfl
  · subst htext
    cases text with
    | nil => exact absurd rfl hne
    | cons c rest =>
        have hplus : ¬ (c = 43 ∧ rest ≠ []) :=
          fun h => isDigit_ne_plus (hdigits c List.mem_cons_self) h.1
        simp only [parseUnsigned, if_neg hplus]
        rw [if_pos hread]
        simp [Option.filter, hle]
  · simp only [parseUnsigned, true_and, if_pos hne]
    rw [if_pos hread]
    simp [Option.filter, hle]

/-- A key is turned down exactly when it spells no integer a site may have. -/
theorem badKey_iff {key : Bytes} :
    Onboarding.BadKey key ↔ (parseU16 key).filter (· ≠ 0) = none := by
  rw [Onboarding.BadKey, not_iff_comm, Option.filter_eq_none_iff]
  constructor
  · intro h
    push Not at h
    obtain ⟨id, hid, hne⟩ := h
    refine ⟨id.toNat, isDecimal_of_parseU16 hid, ?_, by have := id.toNat_lt; omega⟩
    have hpos : id.toNat ≠ 0 := by
      intro hzero
      rw [← UInt16.toNat_zero] at hzero
      simp [UInt16.toNat_inj.mp hzero] at hne
    omega
  · rintro ⟨n, hn, hpos, hle⟩ hnone
    have hid : parseU16 key = some (UInt16.ofNat n) := by
      simp [parseU16, parseUnsigned_of_isDecimal hn hle]
    have hne := hnone _ hid
    simp at hne
    have hzero : n = 0 := by
      have := congrArg UInt16.toNat hne
      rw [UInt16.toNat_ofNat_of_lt' (by simp only [UInt16.size]; omega)] at this
      simpa using this
    omega

/-- What the set builder says about the text of a source. -/
theorem parseCidr_eq_error_iff {s text : Bytes} (h : classify s = .ok (some text))
    {m : String} :
    Cidr.parseCidr text = .error m ↔ Overwide s ∧ m = "prefix length above 128" := by
  obtain ⟨width, hwidth, haddr⟩ := exists_classifyAddr h
  have hread := readsWidth_le hwidth
  rcases classifyAddr_cases haddr with ⟨v4, hv4, hle, hc⟩ | ⟨v6, hv4, hv6, hc⟩ | ⟨-, -, hc⟩
  · cases hc
    rw [parseCidr_cidrText_eq _ (by omega), if_neg (by omega)]
    constructor
    · intro h
      cases h
    · rintro ⟨⟨a, w, b, v6, hsplit, hb, hv6, hover⟩, -⟩
      simp only [addrAndWidth, hsplit] at hv4 hwidth
      simp only [ReadsWidth, Option.map_some, hb] at hwidth
      cases width with
      | none => cases hwidth
      | some b' =>
          cases hwidth
          simp only [Option.getD_some] at hle
          omega
  · cases hc
    rw [parseCidr_cidrText_eq _ hread]
    split_ifs with hover
    · constructor
      · intro h
        cases h
        cases hsplit : splitOnce 47 s with
        | none =>
            simp only [addrAndWidth, hsplit, ReadsWidth, Option.map_none] at hwidth
            cases width with
            | none => simp at hover
            | some b => cases hwidth
        | some parts =>
            obtain ⟨a, w⟩ := parts
            simp only [addrAndWidth, hsplit, ReadsWidth, Option.map_some] at hwidth hv6
            cases width with
            | none => cases hwidth
            | some b =>
                exact ⟨⟨a, w, b, v6, hsplit, Option.some.inj hwidth, hv6, hover⟩, rfl⟩
      · rintro ⟨-, rfl⟩
        rfl
    · constructor
      · intro h
        cases h
      · rintro ⟨⟨a, w, b, v6, hsplit, hb, -, hwide⟩, -⟩
        simp only [addrAndWidth, hsplit, ReadsWidth, Option.map_some, hb] at hwidth
        cases width with
        | none => cases hwidth
        | some b' =>
            cases hwidth
            exact absurd hwide hover
  · cases hc

/-- Only the sources that are read for an address set can be too wide for it. -/
theorem text_of_overwide {s : Bytes} (hwide : Overwide s) {c : Option Bytes}
    (hc : classify s = .ok c) : ∃ text, c = some text := by
  obtain ⟨a, w, b, v6, hsplit, -, hv6, -⟩ := hwide
  obtain ⟨width, -, haddr⟩ := exists_classifyAddr hc
  simp only [addrAndWidth, hsplit] at haddr
  rcases classifyAddr_cases haddr with ⟨v4, -, -, rfl⟩ | ⟨v6, -, -, rfl⟩ | ⟨-, hnone, -⟩
  · exact ⟨_, rfl⟩
  · exact ⟨_, rfl⟩
  · rw [hv6] at hnone
    cases hnone

/-- An entry of the sites map that makes no site, and what is said about it. -/
inductive EntryRejected (key : Bytes) (sources : List Bytes) : TableError → Prop where
  | key (hkey : Onboarding.BadKey key) : EntryRejected key sources (.siteKey key)
  /-- The first source that cannot be read. -/
  | source {before after : List Bytes} {s : Bytes} {e : TableError}
      (hkey : ¬ Onboarding.BadKey key) (hsplit : kept sources = before ++ s :: after)
      (hbefore : ∀ b ∈ before, ∀ e, ¬ Unreadable b e) (hs : Unreadable s e) :
      EntryRejected key sources e
  /-- A width is looked at only once every source is read. -/
  | width {s : Bytes} (hkey : ¬ Onboarding.BadKey key)
      (hread : ∀ b ∈ kept sources, ∀ e, ¬ Unreadable b e) (hs : s ∈ kept sources)
      (hwide : Overwide s) :
      EntryRejected key sources (.cidr "prefix length above 128")

section Entry

variable {key : Bytes} {sources : List Bytes}

theorem exists_read_iff {s : Bytes} :
    (∃ p, ((classify s).map fun c => (s, c)) = .ok p) ↔ ∀ e, ¬ Unreadable s e := by
  rw [← exists_classify_iff]
  cases classify s <;> simp [Except.map]

theorem read_eq_error_iff {e : TableError} :
    ((kept sources).mapM fun m => (classify m).map fun c => (m, c)) = .error e ↔
      ∃ before s after, kept sources = before ++ s :: after ∧
        (∀ b ∈ before, ∀ e, ¬ Unreadable b e) ∧ Unreadable s e := by
  simp only [mapM_eq_error_iff, exists_read_iff, map_eq_error_iff, classify_eq_error_iff]

/-- The address set objects to a width, and to nothing else. -/
theorem buildFrom_eq_error_iff {classified : List (Bytes × Option Bytes)}
    (h : ((kept sources).mapM fun m => (classify m).map fun c => (m, c)) =
      .ok classified) {m : String} :
    Cidr.buildFrom (classified.filterMap Prod.snd) = .error m ↔
      (∃ s ∈ kept sources, Overwide s) ∧ m = "prefix length above 128" := by
  have hread : ∀ s ∈ kept sources, ∃ c, classify s = .ok c := by
    intro s hs
    obtain ⟨p, hp⟩ := exists_mapM_iff.mp ⟨classified, h⟩ s hs
    obtain ⟨c, hc, -⟩ := map_eq_ok_iff.mp hp
    exact ⟨c, hc⟩
  have hfails : ∀ {m : String}, Cidr.buildFrom (classified.filterMap Prod.snd) = .error m →
      (∃ s ∈ kept sources, Overwide s) ∧ m = "prefix length above 128" := by
    intro m hm
    simp only [Cidr.buildFrom, bind_eq_error_iff, pure, Except.pure, reduceCtorEq, and_false,
      exists_false, or_false] at hm
    obtain ⟨before, tok, after, hsplit, -, htok⟩ := mapM_eq_error_iff.mp hm
    have hmem : tok ∈ (classified.filterMap Prod.snd).flatMap Cidr.tokens := by
      simp [hsplit]
    obtain ⟨s, hs, hc⟩ := (mem_texts h).mp hmem
    obtain ⟨hwide, rfl⟩ := (parseCidr_eq_error_iff hc).mp htok
    exact ⟨⟨s, hs, hwide⟩, rfl⟩
  refine ⟨hfails, ?_⟩
  rintro ⟨⟨s, hs, hwide⟩, rfl⟩
  cases hbuilt : Cidr.buildFrom (classified.filterMap Prod.snd) with
  | error m => rw [(hfails hbuilt).2]
  | ok set =>
      obtain ⟨raw, hraw, -⟩ := Cidr.buildFrom_eq_ok_iff.mp hbuilt
      obtain ⟨c, hc⟩ := hread s hs
      obtain ⟨text, rfl⟩ := text_of_overwide hwide hc
      obtain ⟨r, hr⟩ := exists_mapM_iff.mp ⟨raw, hraw⟩ text ((mem_texts h).mpr ⟨s, hs, hc⟩)
      rw [(parseCidr_eq_error_iff hc).mpr ⟨hwide, rfl⟩] at hr
      cases hr

theorem buildSite_eq_error_iff {e : TableError} :
    buildSite key sources = .error e ↔ EntryRejected key sources e := by
  have hbad : Onboarding.BadKey key ↔ (parseU16 key).filter (· ≠ 0) = none := badKey_iff
  unfold buildSite
  cases hkey : (parseU16 key).filter (· ≠ 0) with
  | none =>
      rw [hkey] at hbad
      have hrefused : Onboarding.BadKey key := hbad.mpr rfl
      simp only [bind_eq_error_iff, Except.error.injEq, reduceCtorEq, false_and, exists_false,
        or_false]
      constructor
      · rintro rfl
        exact .key hrefused
      · intro h
        cases h with
        | key => rfl
        | source hnot => exact absurd hrefused hnot
        | width hnot => exact absurd hrefused hnot
  | some id =>
      rw [hkey] at hbad
      have hgood : ¬ Onboarding.BadKey key := fun h => by cases hbad.mp h
      simp only [bind_eq_error_iff, mapError_eq_error_iff, reduceCtorEq, false_or,
        Except.ok.injEq, exists_eq_left', pure, Except.pure, and_false, exists_false,
        or_false]
      rw [← kept, read_eq_error_iff]
      constructor
      · rintro (⟨before, s, after, hsplit, hbefore, hs⟩ | ⟨classified, h, m, hm, rfl⟩)
        · exact .source hgood hsplit hbefore hs
        · obtain ⟨⟨s, hs, hwide⟩, rfl⟩ := (buildFrom_eq_error_iff h).mp hm
          have hread : ∀ b ∈ kept sources, ∀ e, ¬ Unreadable b e := fun b hb =>
            exists_read_iff.mp (exists_mapM_iff.mp ⟨classified, h⟩ b hb)
          exact .width hgood hread hs hwide
      · intro h
        cases h with
        | key hrefused => exact absurd hrefused hgood
        | source _ hsplit hbefore hs => exact Or.inl ⟨_, _, _, hsplit, hbefore, hs⟩
        | width _ hread hs hwide =>
            obtain ⟨classified, h⟩ := exists_mapM_iff.mpr fun b hb =>
              exists_read_iff.mpr (hread b hb)
            exact Or.inr ⟨classified, h, _,
              (buildFrom_eq_error_iff h).mpr ⟨⟨_, hs, hwide⟩, rfl⟩, rfl⟩

end Entry

/-- A prefix no scheme is made with.  The width is read before the address and
compared after it. -/
inductive PrefixRejected (text : Bytes) : String → Prop where
  | length {ip w : Bytes} (hsplit : splitOnce 47 text = some (ip, w))
      (hw : parseU8 w = none) : PrefixRejected text "bad prefix length"
  | address {bits : Option Nat} (hbits : ReadsWidth (addrAndWidth text).2 bits)
      (hip : parseIpv6 (addrAndWidth text).1 = none) :
      PrefixRejected text "bad IPv6 address"
  | width {bits : Nat} {ip : Octets 16} (hbits : ReadsWidth (addrAndWidth text).2 (some bits))
      (hip : parseIpv6 (addrAndWidth text).1 = some ip) (hne : bits ≠ 48) :
      PrefixRejected text "prefix must be /48"
  | foreign {bits : Option Nat} {ip : Octets 16}
      (hbits : ReadsWidth (addrAndWidth text).2 bits) (h48 : bits.getD 48 = 48)
      (hip : parseIpv6 (addrAndWidth text).1 = some ip)
      (hlocal : (ip.bytes.headD 0) &&& 0xfe ≠ 0xfc) : PrefixRejected text "not unique-local"
  | below {bits : Option Nat} {ip : Octets 16}
      (hbits : ReadsWidth (addrAndWidth text).2 bits) (h48 : bits.getD 48 = 48)
      (hip : parseIpv6 (addrAndWidth text).1 = some ip)
      (hlocal : (ip.bytes.headD 0) &&& 0xfe = 0xfc) {b : UInt8} (hb : b ∈ ip.bytes.drop 6)
      (hne : b ≠ 0) : PrefixRejected text "prefix has bits set below /48"

/-- What is said about a prefix once its width is read. -/
def prefixFault (ipText : Bytes) (bits : Option Nat) : Option String :=
  match parseIpv6 ipText with
  | none => some "bad IPv6 address"
  | some ip =>
      if bits.any (· ≠ 48) then some "prefix must be /48"
      else if (ip.bytes.headD 0) &&& 0xfe ≠ 0xfc then some "not unique-local"
      else if (ip.bytes.drop 6).any (· ≠ 0) then some "prefix has bits set below /48"
      else none

theorem parsePrefix_of_readsWidth {text : Bytes} {bits : Option Nat}
    (h : ReadsWidth (addrAndWidth text).2 bits) {m : String} :
    parsePrefix text = .error m ↔ prefixFault (addrAndWidth text).1 bits = some m := by
  unfold parsePrefix prefixFault
  cases hsplit : splitOnce 47 text with
  | none =>
      simp only [addrAndWidth, hsplit, ReadsWidth, Option.map_none] at h ⊢
      cases bits with
      | some b => cases h
      | none =>
          cases hip : parseIpv6 text with
          | none => simp [hip, bind, Except.bind]
          | some ip =>
              simp only [hip, bind, Except.bind]
              split_ifs <;> simp
  | some parts =>
      obtain ⟨ip, w⟩ := parts
      simp only [addrAndWidth, hsplit, ReadsWidth, Option.map_some] at h ⊢
      cases bits with
      | none => cases h
      | some b =>
          rw [Option.map_some, Option.some.injEq] at h
          cases hip : parseIpv6 ip with
          | none => simp [h, hip, bind, Except.bind]
          | some ip =>
              simp only [h, hip, bind, Except.bind]
              split_ifs <;> simp

theorem readsWidth_inj {text : Option Bytes} {bits bits' : Option Nat}
    (h : ReadsWidth text bits) (h' : ReadsWidth text bits') : bits = bits' :=
  Option.map_injective (Option.some_injective _) (h.symm.trans h')

theorem any_ne_iff {bits : Option Nat} : bits.any (· ≠ 48) = true ↔ bits.getD 48 ≠ 48 := by
  cases bits <;> simp

theorem prefixFault_eq_some_iff {text : Bytes} {bits : Option Nat}
    (hbits : ReadsWidth (addrAndWidth text).2 bits) {m : String} :
    prefixFault (addrAndWidth text).1 bits = some m ↔ PrefixRejected text m := by
  constructor
  · intro h
    unfold prefixFault at h
    cases hip : parseIpv6 (addrAndWidth text).1 with
    | none =>
        simp only [hip] at h
        cases h
        exact .address hbits hip
    | some ip =>
        simp only [hip, any_ne_iff] at h
        split_ifs at h with h48 hlocal hlow
        · cases h
          cases bits with
          | none => exact absurd rfl h48
          | some b => exact .width hbits hip h48
        · cases h
          exact .foreign hbits (not_not.mp h48) hip hlocal
        · cases h
          obtain ⟨b, hb, hne⟩ := List.any_eq_true.mp hlow
          exact .below hbits (not_not.mp h48) hip (not_not.mp hlocal) hb (of_decide_eq_true hne)
  · intro h
    cases h with
    | length hsplit hw =>
        simp only [addrAndWidth, hsplit, ReadsWidth, Option.map_some, hw] at hbits
        cases bits <;> cases hbits
    | address _ hip => simp only [prefixFault, hip]
    | width hbits' hip hne =>
        cases readsWidth_inj hbits hbits'
        simp [prefixFault, hip, hne]
    | foreign hbits' h48 hip hlocal =>
        cases readsWidth_inj hbits hbits'
        simp only [prefixFault, hip, any_ne_iff]
        rw [if_neg (not_not.mpr h48), if_pos hlocal]
    | below hbits' h48 hip hlocal hb hne =>
        cases readsWidth_inj hbits hbits'
        simp only [prefixFault, hip, any_ne_iff]
        rw [if_neg (not_not.mpr h48), if_neg (not_not.mpr hlocal),
          if_pos (List.any_eq_true.mpr ⟨_, hb, decide_eq_true hne⟩)]

theorem parsePrefix_eq_error_iff {text : Bytes} {m : String} :
    parsePrefix text = .error m ↔ PrefixRejected text m := by
  cases hsplit : splitOnce 47 text with
  | none =>
      have hbits : ReadsWidth (addrAndWidth text).2 none := by
        simp [addrAndWidth, hsplit, ReadsWidth]
      rw [parsePrefix_of_readsWidth hbits, prefixFault_eq_some_iff hbits]
  | some parts =>
      obtain ⟨ip, w⟩ := parts
      cases hw : parseU8 w with
      | some b =>
          have hbits : ReadsWidth (addrAndWidth text).2 (some b) := by
            simp [addrAndWidth, hsplit, ReadsWidth, hw]
          rw [parsePrefix_of_readsWidth hbits, prefixFault_eq_some_iff hbits]
      | none =>
          have hunread : ∀ bits, ¬ ReadsWidth (addrAndWidth text).2 bits := by
            intro bits hbits
            simp only [addrAndWidth, hsplit, ReadsWidth, Option.map_some, hw] at hbits
            cases bits <;> cases hbits
          have herror : parsePrefix text = .error "bad prefix length" := by
            simp [parsePrefix, hsplit, hw, bind, Except.bind]
          rw [herror, Except.error.injEq]
          constructor
          · rintro rfl
            exact .length hsplit hw
          · intro h
            cases h with
            | length => rfl
            | address hbits => exact absurd hbits (hunread _)
            | width hbits => exact absurd hbits (hunread _)
            | foreign hbits => exact absurd hbits (hunread _)
            | below hbits => exact absurd hbits (hunread _)

theorem exists_parsePrefix_iff {text : Bytes} :
    (∃ pfx, parsePrefix text = .ok pfx) ↔ ∀ m, ¬ PrefixRejected text m := by
  simp only [← parsePrefix_eq_error_iff]
  cases parsePrefix text <;> simp

/-- The entry makes a site. -/
def EntryAccepted (entry : Bytes × List Bytes) : Prop :=
  ∀ e, ¬ EntryRejected entry.1 entry.2 e

/-- A table that is not published: its prefix, or the first of its entries, in
the order of their keys, that makes no site. -/
inductive TableRejected (raw : RawTable) : TableError → Prop where
  | ula {m : String} (h : PrefixRejected raw.ula m) : TableRejected raw (.ula m)
  | entry {before after : List (Bytes × List Bytes)}
      {key : Bytes} {sources : List Bytes} {e : TableError}
      (hula : ∀ m, ¬ PrefixRejected raw.ula m)
      (hsplit : raw.sites.toList = before ++ (key, sources) :: after)
      (hbefore : ∀ b ∈ before, EntryAccepted b)
      (h : EntryRejected key sources e) : TableRejected raw e

theorem exists_site_iff {entry : Bytes × List Bytes} :
    (∃ site, buildSite entry.1 entry.2 = .ok site) ↔ EntryAccepted entry := by
  simp only [EntryAccepted, ← buildSite_eq_error_iff]
  cases buildSite entry.1 entry.2 <;> simp

theorem buildSites_eq_error_iff {sites : Std.TreeMap Bytes (List Bytes)} {e : TableError} :
    buildSites sites = .error e ↔
      ∃ before key sources after, sites.toList = before ++ (key, sources) :: after ∧
        (∀ b ∈ before, EntryAccepted b) ∧ EntryRejected key sources e := by
  rw [buildSites, mapM_eq_error_iff]
  constructor
  · rintro ⟨before, ⟨key, sources⟩, after, hsplit, hbefore, h⟩
    exact ⟨before, key, sources, after, hsplit,
      fun b hb => exists_site_iff.mp (hbefore b hb), buildSite_eq_error_iff.mp h⟩
  · rintro ⟨before, key, sources, after, hsplit, hbefore, h⟩
    exact ⟨before, (key, sources), after, hsplit,
      fun b hb => exists_site_iff.mpr (hbefore b hb), buildSite_eq_error_iff.mpr h⟩

theorem parseTable_eq_error_iff {fromStr : Bytes → Except String RawTable} {text : Bytes}
    {e : TableError} :
    parseTable fromStr text = .error e ↔
      (∃ m, fromStr text = .error m ∧ e = .json m) ∨
        ∃ raw, fromStr text = .ok raw ∧ TableRejected raw e := by
  simp only [parseTable, parsePrefix_eq_error_iff, bind_eq_error_iff, mapError_eq_error_iff,
    mapError_eq_ok_iff, buildSites_eq_error_iff, pure, Except.pure, reduceCtorEq, and_false,
    exists_false, or_false]
  constructor
  · rintro (⟨m, hm, rfl⟩ | ⟨raw, hraw, ⟨m, hm, rfl⟩ |
      ⟨pfx, hula, before, key, sources, after, hsplit, hbefore, h⟩⟩)
    · exact Or.inl ⟨m, hm, rfl⟩
    · exact Or.inr ⟨raw, hraw, .ula hm⟩
    · have hread := exists_parsePrefix_iff.mp ⟨pfx, hula⟩
      exact Or.inr ⟨raw, hraw, .entry hread hsplit hbefore h⟩
  · rintro (⟨m, hm, rfl⟩ | ⟨raw, hraw, h⟩)
    · exact Or.inl ⟨m, hm, rfl⟩
    · cases h with
      | ula hm => exact Or.inr ⟨raw, hraw, Or.inl ⟨_, hm, rfl⟩⟩
      | entry hula hsplit hbefore h =>
          obtain ⟨pfx, hpfx⟩ := exists_parsePrefix_iff.mpr hula
          exact Or.inr ⟨raw, hraw, Or.inr ⟨pfx, hpfx, _, _, _, _, hsplit, hbefore, h⟩⟩

/-- What the carrier is given, and what is said about it. -/
inductive CarrierRejected (readers : Readers) (bytes : Bytes) : CarrierError → Prop where
  | utf8 (h : ¬ (ByteArray.mk bytes.toArray).validateUTF8) :
      CarrierRejected readers bytes (.text "filter_config is not valid UTF-8")
  | missing (hutf8 : (ByteArray.mk bytes.toArray).validateUTF8) (h : trim bytes = []) :
      CarrierRejected readers bytes (.text "filter_config is missing")
  | json {m : String} (hutf8 : (ByteArray.mk bytes.toArray).validateUTF8)
      (hthere : trim bytes ≠ []) (h : readers.table bytes = .error m) :
      CarrierRejected readers bytes (.table (.json m))
  | table {raw : RawTable} {e : TableError}
      (hutf8 : (ByteArray.mk bytes.toArray).validateUTF8) (hthere : trim bytes ≠ [])
      (hraw : readers.table bytes = .ok raw) (h : TableRejected raw e) :
      CarrierRejected readers bytes (.table e)

theorem readTable_eq_error_iff {readers : Readers} {bytes : Bytes} {e : CarrierError} :
    readTable readers bytes = .error e ↔ CarrierRejected readers bytes e := by
  unfold readTable textOf
  split_ifs with hutf8 hmissing
  · constructor
    · intro h
      cases h
      exact .missing hutf8 hmissing
    · intro h
      cases h with
      | utf8 h => exact absurd hutf8 h
      | missing => rfl
      | json _ h => exact absurd hmissing h
      | table _ h => exact absurd hmissing h
  · have hparse : (do
        let text ← (Except.ok bytes : Except String Bytes).mapError CarrierError.text
        (parseTable readers.table text).mapError CarrierError.table) =
        (parseTable readers.table bytes).mapError CarrierError.table := rfl
    simp only [hparse, mapError_eq_error_iff, parseTable_eq_error_iff]
    constructor
    · rintro ⟨e', ⟨m, hm, rfl⟩ | ⟨raw, hraw, h⟩, rfl⟩
      · exact .json hutf8 hmissing hm
      · exact .table hutf8 hmissing hraw h
    · intro h
      cases h with
      | utf8 h => exact absurd hutf8 h
      | missing _ h => exact absurd h hmissing
      | json _ _ hm => exact ⟨_, Or.inl ⟨_, hm, rfl⟩, rfl⟩
      | table _ _ hraw h => exact ⟨_, Or.inr ⟨_, hraw, h⟩, rfl⟩
  · constructor
    · intro h
      cases h
      exact .utf8 hutf8
    · intro h
      cases h with
      | utf8 => rfl
      | missing h => exact absurd h hutf8
      | json h => exact absurd h hutf8
      | table h => exact absurd h hutf8

/-- A carrier's config is turned down for the first thing wrong with it, and then
what is published stays as it was; a config with nothing wrong is published. -/
theorem load_table_rejects (readers : Readers) (cell : Published) (bytes : Bytes) :
    (∀ e, readTable readers bytes = .error e ↔ CarrierRejected readers bytes e) ∧
      (loadTable readers cell bytes = (cell, false) ↔ ∃ e, CarrierRejected readers bytes e) ∧
      ((loadTable readers cell bytes).2 = true ↔ ∃ table,
        readTable readers bytes = .ok table ∧
          loadTable readers cell bytes = (cell.publish table, true)) := by
  refine ⟨fun e => readTable_eq_error_iff, ?_, ?_⟩
  · simp only [← readTable_eq_error_iff, loadTable]
    cases readTable readers bytes <;> simp
  · simp only [loadTable]
    cases readTable readers bytes <;> simp

end Rejection

end Ppv2Auth
