import Kollaps.Xmlgraphparser.Basic
import Mathlib.Data.List.TakeWhile

/-!
# The grammar of the bandwidths

The expression `([0-9]+)([KMG])bps` is searched for in the text: nothing ties a match to the
whole of the text.
-/

namespace Kollaps

open Run

namespace Xmlgraphparser

/-! ## Matches -/

def isDecimal (c : Char) : Bool := c.isDigit

def decimal (digits : List Char) : Nat := digits.foldl (fun n c => 10 * n + (c.toNat - '0'.toNat)) 0

def multiplierOf (c : Char) : Nat :=
  if c = 'G' then 1024 * 1024 else if c = 'M' then 1024 else 1

/-- A match of `([0-9]+)([KMG])bps` in a text: what stands before it, its two groups, and what
stands behind it. -/
structure MatchIn (cs before digits : List Char) (c : Char) (after : List Char) : Prop where
  text_eq : cs = before ++ (digits ++ c :: 'b' :: 'p' :: 's' :: after)
  digits_ne : digits ≠ []
  digits_all : ∀ d ∈ digits, isDecimal d = true
  multiplier : c = 'K' ∨ c = 'M' ∨ c = 'G'

/-- The documented search: it gives the groups of a match that starts first, and nothing where
there is no match. -/
structure Leftmost (captures : String → Option (String × String)) : Prop where
  found : ∀ text groups, captures text = some groups → ∃ before digits c after,
    groups = (String.ofList digits, String.ofList [c]) ∧ MatchIn text.toList before digits c after ∧
      ∀ before' digits' c' after', MatchIn text.toList before' digits' c' after' →
        before.length ≤ before'.length
  missing : ∀ text, captures text = none →
    ∀ before digits c after, ¬ MatchIn text.toList before digits c after

theorem isDecimal_iff {c : Char} : isDecimal c = true ↔ '0' ≤ c ∧ c ≤ '9' := by
  unfold isDecimal Char.isDigit
  rw [Bool.and_eq_true, decide_eq_true_eq, decide_eq_true_eq]
  rfl

theorem not_isDecimal {c : Char} (h : c = 'K' ∨ c = 'M' ∨ c = 'G') : isDecimal c = false := by
  rcases h with rfl | rfl | rfl <;> decide

theorem MatchIn.unique {cs before digits digits' : List Char} {c c' : Char}
    {after after' : List Char} (h : MatchIn cs before digits c after)
    (h' : MatchIn cs before digits' c' after') : digits = digits' ∧ c = c' ∧ after = after' := by
  have he := List.append_cancel_left (h.text_eq.symm.trans h'.text_eq)
  have hdigits : digits = digits' := by
    have ht := congrArg (List.takeWhile isDecimal) he
    rwa [List.takeWhile_append_of_pos h.digits_all, List.takeWhile_append_of_pos h'.digits_all,
      List.takeWhile_cons_of_neg (by simp [not_isDecimal h.multiplier]),
      List.takeWhile_cons_of_neg (by simp [not_isDecimal h'.multiplier]), List.append_nil,
      List.append_nil] at ht
  subst hdigits
  have hrest := List.append_cancel_left he
  simp only [List.cons.injEq, true_and] at hrest
  exact ⟨rfl, hrest.1, hrest.2⟩

/-! ## Digits as a float -/

theorem digit_decimal {c : Char} (h : isDecimal c = true) : Text.digit 10 c = some (c.toNat - '0'.toNat) := by
  have hc : '0' ≤ c ∧ c ≤ '9' := isDecimal_iff.mp h
  have hlt : c.toNat - '0'.toNat < 10 := by
    have h9 : c.toNat ≤ '9'.toNat := hc.2
    have : '9'.toNat = 57 := rfl
    have : '0'.toNat = 48 := rfl
    omega
  simp only [Text.digit, if_pos hc, if_pos hlt]

theorem value_decimal {digits : List Char} (h : ∀ d ∈ digits, isDecimal d = true) :
    Text.value 10 digits = decimal digits := by
  unfold Text.value decimal
  apply List.foldl_ext
  intro n c hc
  rw [digit_decimal (h c hc), Option.getD_some, Nat.mul_comm]

theorem isDecimal_ne {c d : Char} (h : isDecimal c = true) (hd : isDecimal d = false) : c ≠ d := by
  rintro rfl
  rw [h] at hd
  cases hd

theorem toLower_decimal {c : Char} (h : isDecimal c = true) : c.toLower = c := by
  have hc : '0' ≤ c ∧ c ≤ '9' := isDecimal_iff.mp h
  have h9 : c.toNat ≤ 57 := hc.2
  unfold Char.toLower
  rw [dif_neg]
  rintro ⟨hA, -⟩
  have : 65 ≤ c.toNat := hA
  omega

theorem sign_decimal {c : Char} (cs : List Char) (h : isDecimal c = true) :
    Text.sign (c :: cs) = (false, c :: cs) := by
  unfold Text.sign
  split
  · rename_i he
    exact absurd (List.cons.inj he).1 (isDecimal_ne h rfl)
  · rename_i he
    exact absurd (List.cons.inj he).1 (isDecimal_ne h rfl)
  · rfl

theorem number_decimal {digits : List Char} (hne : digits ≠ []) (h : ∀ d ∈ digits, isDecimal d = true) :
    Text.number digits = some (decimal digits : ℚ) := by
  have hdigit : ∀ d ∈ digits, Text.isDigit 10 d = true := by
    intro d hd
    rw [Text.isDigit, digit_decimal (h d hd), Option.isSome_some]
  have htake : digits.takeWhile (Text.isDigit 10) = digits := List.takeWhile_eq_self_iff.mpr hdigit
  have hdrop : digits.dropWhile (Text.isDigit 10) = [] := List.dropWhile_eq_nil_iff.mpr hdigit
  unfold Text.number
  simp only [htake, hdrop, List.append_nil, value_decimal h]
  rw [if_neg (by simp [hne])]
  simp [Text.exponent, Text.scale]

theorem float_decimal (f : Binary.Format) {digits : List Char} (hne : digits ≠ [])
    (h : ∀ d ∈ digits, isDecimal d = true) :
    Text.float f (String.ofList digits) = some (.round f (decimal digits)) := by
  obtain ⟨c, cs, rfl⟩ := List.exists_cons_of_ne_nil hne
  have hc := h c List.mem_cons_self
  unfold Text.float
  rw [String.toList_ofList, sign_decimal cs hc]
  have hword : ∀ d ds, isDecimal d = false → Text.lower (c :: cs) ≠ d :: ds := by
    intro d ds hd he
    rw [Text.lower, List.map_cons, toLower_decimal hc] at he
    exact isDecimal_ne hc hd (List.cons.inj he).1
  simp only [hword 'i' _ rfl, hword 'n' _ rfl, number_decimal hne h]
  rfl

/-! ## Multiples of a power of two -/

/-- What is below the precision fits, shifted up by twenty places too. -/
theorem fits_shifted {n k : Nat} (hn : n < 16777216) (hk : k ≤ 20) :
    Binary.Format.binary32.Fits (n * 2 ^ k : Nat) :=
  Binary.Format.binary32.fits_natCast hn (by decide) (by simp [Binary.Format.binary32]; omega)

theorem mul_kilo {n k : Nat} (hn : n < 16777216) (hk : k + 10 ≤ 20) :
    (.finite _ (fits_shifted hn (by omega : k ≤ 20)) : F32) * .round _ 1024 =
      .finite _ (fits_shifted hn hk) := by
  have hkilo : (.round _ 1024 : F32) =
    .finite ((1 * 2 ^ 10 : Nat) : ℚ) (fits_shifted (by omega) (by omega)) := by
    rw [← Binary.Value.round_of_fits]
    norm_num
  have hprod : ((n * 2 ^ k : Nat) : ℚ) * ((1 * 2 ^ 10 : Nat) : ℚ) = ((n * 2 ^ (k + 10) : Nat) : ℚ) := by
    rw [Nat.one_mul, ← Nat.cast_mul, Nat.mul_assoc, ← Nat.pow_add]
  rw [hkilo]
  show Binary.Value.round .binary32 (_ * _) = _
  rw [hprod, Binary.Value.round_of_fits (fits_shifted hn hk)]

/-! ## Which texts are accepted -/

def bandwidthOf (digits : List Char) (c : Char) : F32 :=
  if c = 'M' then .round _ (decimal digits) * .round _ 1024
  else if c = 'G' then .round _ (decimal digits) * .round _ 1024 * .round _ 1024
  else .round _ (decimal digits)

theorem bandwidthOf_exact {digits : List Char} (h : decimal digits < 16777216) (c : Char) :
    ∃ fits, bandwidthOf digits c = .finite (decimal digits * multiplierOf c) fits := by
  have hround : (.round _ (decimal digits) : F32) = .finite _ (fits_shifted h (Nat.zero_le 20)) := by
    rw [← Binary.Value.round_of_fits]
    simp
  have hvalue : ∀ {k m : Nat} (hk : k ≤ 20), 2 ^ k = m → ∃ fits,
      (.finite _ (fits_shifted h hk) : F32) = .finite (decimal digits * m) fits := by
    rintro k m hk rfl
    have hfits := fits_shifted h hk
    rw [Nat.cast_mul] at hfits
    refine ⟨hfits, ?_⟩
    rw [← Binary.Value.round_of_fits, ← Binary.Value.round_of_fits, Nat.cast_mul]
  unfold bandwidthOf multiplierOf
  rw [hround]
  by_cases hM : c = 'M'
  · have hG : c ≠ 'G' := by
      rintro rfl
      cases hM
    rw [if_pos hM, mul_kilo h (k := 0) (by omega), if_neg hG, if_pos hM]
    exact hvalue (k := 10) (by omega) (by norm_num)
  · by_cases hG : c = 'G'
    · simp only [if_neg hM, if_pos hG]
      rw [mul_kilo h (k := 0) (by omega), mul_kilo h (k := 10) (by omega)]
      exact hvalue (k := 20) (by omega) (by norm_num)
    · simp only [if_neg hM, if_neg hG]
      exact hvalue (k := 0) (by omega) (by norm_num)

theorem parseBandwidth_of_groups {libs : XmlLibraries} {text : String} {digits : List Char} {c : Char}
    (hcap : libs.captures text = some (String.ofList digits, String.ofList [c]))
    (hne : digits ≠ []) (hall : ∀ d ∈ digits, isDecimal d = true) :
    parseBandwidth libs text = .ok (bandwidthOf digits c) := by
  have hM : String.ofList [c] = "M" ↔ c = 'M' := by
    rw [← String.toList_inj, String.toList_ofList]
    simp
  have hG : String.ofList [c] = "G" ↔ c = 'G' := by
    rw [← String.toList_inj, String.toList_ofList]
    simp
  unfold parseBandwidth
  simp only [hcap, float_decimal _ hne hall, unwrap_some, bind_ok, hM, hG]
  rfl

theorem parseBandwidth_of_match {libs : XmlLibraries} (h : Leftmost libs.captures) {text : String}
    {before digits : List Char} {c : Char} {after : List Char}
    (hm : MatchIn text.toList before digits c after) :
    ∃ value, parseBandwidth libs text = .ok value ∧ (before = [] → value = bandwidthOf digits c) := by
  cases hcap : libs.captures text with
  | none => exact absurd hm (h.missing text hcap _ _ _ _)
  | some groups =>
    obtain ⟨before', digits', c', after', rfl, hm', hfirst⟩ := h.found text groups hcap
    refine ⟨_, parseBandwidth_of_groups hcap hm'.digits_ne hm'.digits_all, fun hb => ?_⟩
    have hlen := hfirst _ _ _ _ hm
    rw [hb, List.length_nil, Nat.le_zero, List.length_eq_zero_iff] at hlen
    subst hb hlen
    obtain ⟨rfl, rfl, -⟩ := hm.unique hm'
    rfl

theorem parseBandwidth_of_no_match {libs : XmlLibraries} (h : Leftmost libs.captures) {text : String}
    (hm : ∀ before digits c after, ¬ MatchIn text.toList before digits c after) :
    parseBandwidth libs text = .error (.err "cannot parse the bandwidth") := by
  unfold parseBandwidth
  cases hcap : libs.captures text with
  | none => rfl
  | some groups =>
    obtain ⟨before, digits, c, after, -, hmatch, -⟩ := h.found text groups hcap
    exact absurd hmatch (hm _ _ _ _)

/-- A text of the grammar is read with its value, where the number is exact in an `f32`, and
any other text is an error. -/
def ReadsGrammar (libs : XmlLibraries) (text : String) : Prop :=
  (∀ digits c, MatchIn text.toList [] digits c [] → ∃ value, parseBandwidth libs text = .ok value ∧
    (decimal digits < 16777216 → ∃ fits, value = .finite (decimal digits * multiplierOf c) fits)) ∧
  ((∀ digits c, ¬ MatchIn text.toList [] digits c []) →
    parseBandwidth libs text = .error (.err "cannot parse the bandwidth"))

/-- The grammar is kept by the texts that match as a whole or have no match inside. -/
theorem readsGrammar_iff {libs : XmlLibraries} (h : Leftmost libs.captures) (text : String) :
    ReadsGrammar libs text ↔ (∃ digits c, MatchIn text.toList [] digits c []) ∨
      ∀ before digits c after, ¬ MatchIn text.toList before digits c after := by
  constructor
  · rintro ⟨-, hother⟩
    by_cases hwhole : ∃ digits c, MatchIn text.toList [] digits c []
    · exact Or.inl hwhole
    · right
      intro before digits c after hm
      obtain ⟨value, hvalue, -⟩ := parseBandwidth_of_match h hm
      rw [hother (by simpa using hwhole)] at hvalue
      cases hvalue
  · intro hcond
    refine ⟨fun digits c hm => ?_, fun hnot => ?_⟩
    · obtain ⟨value, hvalue, heq⟩ := parseBandwidth_of_match h hm
      exact ⟨value, hvalue, fun hlt => heq rfl ▸ bandwidthOf_exact hlt c⟩
    · rcases hcond with ⟨digits, c, hm⟩ | hnone
      · exact absurd hm (hnot digits c)
      · exact parseBandwidth_of_no_match h hnone

/-! ## The search -/

def matchFront (cs : List Char) : Option (List Char × Char) :=
  match cs.dropWhile isDecimal with
  | c :: 'b' :: 'p' :: 's' :: _ =>
    if cs.takeWhile isDecimal ≠ [] ∧ (c = 'K' ∨ c = 'M' ∨ c = 'G') then some (cs.takeWhile isDecimal, c)
    else none
  | _ => none

def search : List Char → Option (List Char × Char)
  | [] => none
  | c :: cs => (matchFront (c :: cs)).or (search cs)

theorem matchFront_eq_some {cs digits : List Char} {c : Char} :
    matchFront cs = some (digits, c) ↔ ∃ after, MatchIn cs [] digits c after := by
  constructor
  · intro h
    unfold matchFront at h
    split at h
    · rename_i c' after hdrop
      split at h
      · rename_i hcond
        cases h
        refine ⟨after, ?_, hcond.1, fun d hd => List.mem_takeWhile_imp hd, hcond.2⟩
        rw [List.nil_append, ← hdrop, List.takeWhile_append_dropWhile]
      · cases h
    · cases h
  · rintro ⟨after, rfl, hne, hall, hmult⟩
    have hc : ¬ isDecimal c = true := by simp [not_isDecimal hmult]
    have htake : (digits ++ c :: 'b' :: 'p' :: 's' :: after).takeWhile isDecimal = digits := by
      rw [List.takeWhile_append_of_pos hall, List.takeWhile_cons_of_neg hc, List.append_nil]
    have hdrop : (digits ++ c :: 'b' :: 'p' :: 's' :: after).dropWhile isDecimal =
        c :: 'b' :: 'p' :: 's' :: after := by
      rw [List.dropWhile_append_of_pos hall, List.dropWhile_cons_of_neg hc]
    rw [List.nil_append, matchFront, hdrop, htake]
    simp [hne, hmult]

theorem MatchIn.tail {a b : Char} {cs before digits : List Char} {c : Char} {after : List Char}
    (h : MatchIn (a :: cs) (b :: before) digits c after) : MatchIn cs before digits c after :=
  ⟨(List.cons.inj h.text_eq).2, h.digits_ne, h.digits_all, h.multiplier⟩

theorem MatchIn.cons {cs before digits : List Char} {c : Char} {after : List Char}
    (h : MatchIn cs before digits c after) (a : Char) : MatchIn (a :: cs) (a :: before) digits c after :=
  ⟨by rw [h.text_eq, List.cons_append], h.digits_ne, h.digits_all, h.multiplier⟩

theorem search_none {cs : List Char} (h : search cs = none) (before digits : List Char) (c : Char)
    (after : List Char) : ¬ MatchIn cs before digits c after := by
  induction cs generalizing before with
  | nil =>
    intro hm
    have := congrArg List.length hm.text_eq
    simp at this
  | cons a cs ih =>
    intro hm
    rw [search, Option.or_eq_none_iff] at h
    cases before with
    | nil =>
      rw [matchFront_eq_some.mpr ⟨after, hm⟩] at h
      exact absurd h.1 (by simp)
    | cons b before => exact ih h.2 before hm.tail

theorem search_some {cs digits : List Char} {c : Char} (h : search cs = some (digits, c)) :
    ∃ before after, MatchIn cs before digits c after ∧
      ∀ before' digits' c' after', MatchIn cs before' digits' c' after' → before.length ≤ before'.length := by
  induction cs with
  | nil => cases h
  | cons a cs ih =>
    rw [search] at h
    cases hfront : matchFront (a :: cs) with
    | some r =>
      rw [hfront, Option.some_or] at h
      obtain ⟨after, hm⟩ := matchFront_eq_some.mp (hfront.trans h)
      exact ⟨[], after, hm, fun _ _ _ _ _ => Nat.zero_le _⟩
    | none =>
      rw [hfront, Option.none_or] at h
      obtain ⟨before, after, hm, hfirst⟩ := ih h
      refine ⟨a :: before, after, hm.cons a, fun before' digits' c' after' hm' => ?_⟩
      cases before' with
      | nil =>
        rw [matchFront_eq_some.mpr ⟨after', hm'⟩] at hfront
        cases hfront
      | cons b before' => exact Nat.succ_le_succ (hfirst _ _ _ _ hm'.tail)

def searchCaptures (text : String) : Option (String × String) :=
  (search text.toList).map fun r => (String.ofList r.1, String.ofList [r.2])

theorem searchCaptures_leftmost : Leftmost searchCaptures := by
  refine ⟨fun text groups h => ?_, fun text h => ?_⟩
  · unfold searchCaptures at h
    obtain ⟨⟨digits, c⟩, hs, rfl⟩ := Option.map_eq_some_iff.mp h
    obtain ⟨before, after, hm, hfirst⟩ := search_some hs
    exact ⟨before, digits, c, after, rfl, hm, hfirst⟩
  · unfold searchCaptures at h
    exact search_none (Option.map_eq_none_iff.mp h)

def searchLibraries : XmlLibraries := ⟨fun _ => none, searchCaptures⟩

theorem demo_readsGrammar : ReadsGrammar searchLibraries "100Mbps" := by
  have hleftmost : Leftmost searchLibraries.captures := searchCaptures_leftmost
  apply (readsGrammar_iff hleftmost "100Mbps").mpr
  have hdecimal : ∀ d ∈ ['1', '0', '0'], isDecimal d = true := by simp [isDecimal]
  exact Or.inl ⟨['1', '0', '0'], 'M', rfl, by simp, hdecimal, by simp⟩

/-- What stands before the point is dropped: a link of one and a half is one of five. -/
theorem fraction_accepted : Leftmost searchLibraries.captures ∧
    (∃ fits, parseBandwidth searchLibraries "1.5Mbps" = .ok (.finite 5120 fits)) ∧
    ¬ ReadsGrammar searchLibraries "1.5Mbps" := by
  have hparse : parseBandwidth searchLibraries "1.5Mbps" = .ok (.round _ 5120) := by decide +kernel
  have hfits : Binary.Format.binary32.Fits 5120 := by
    simpa using fits_shifted (n := 5) (k := 10) (by omega) (by omega)
  refine ⟨searchCaptures_leftmost, ⟨hfits, by rw [hparse, Binary.Value.round_of_fits hfits]⟩, ?_⟩
  rintro ⟨-, hother⟩
  have hfront : matchFront "1.5Mbps".toList = none := by decide
  rw [hother fun digits c hm => ?_] at hparse
  · cases hparse
  · rw [matchFront_eq_some.mpr ⟨[], hm⟩] at hfront
    cases hfront

end Xmlgraphparser

end Kollaps
