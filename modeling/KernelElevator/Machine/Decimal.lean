/-
KernelElevator.Machine.Decimal — numbers in decimal.

`toString` writes an integer as C's `%d` does: an optional minus sign and
the digits, with no padding. The lemmas say how long that is, and what it
stands for when it is read back.
-/
import Mathlib.Algebra.Ring.Int.Defs
import Mathlib.Algebra.Order.Field.Rat
import Mathlib.Tactic.FieldSimp
import Mathlib.Tactic.Linarith

namespace Transition

/-! ## Its length -/

/-- A non-negative number has at most `k` digits if and only if it is below
`10 ^ k`. -/
theorem length_toString_le_iff_of_nonneg {n : Int} {k : Nat} (hk : 0 < k) (h0 : 0 ≤ n) :
    (toString n).length ≤ k ↔ n < 10 ^ k := by
  rw [Int.toString_eq_repr, Int.repr_eq_if, if_pos h0, Nat.length_repr_le_iff hk,
    Int.toNat_lt h0]
  norm_cast

/-- With a sign it is one character more. -/
theorem length_toString_le_iff_of_neg {n : Int} {k : Nat} (hk : 0 < k) (hneg : n < 0) :
    (toString n).length ≤ k + 1 ↔ -(10 ^ k) < n := by
  have hdigits : (-n).toNat.repr.length ≤ k ↔ -(10 ^ k) < n := by
    rw [Nat.length_repr_le_iff hk, Int.toNat_lt (by omega)]
    push_cast
    omega
  have hsign : "-".length = 1 := rfl
  rw [← hdigits, Int.toString_eq_repr, Int.repr_eq_if, if_neg (by omega), String.length_append,
    hsign]
  omega

theorem length_toString_le_of_nonneg {n : Int} {k : Nat} (hk : 0 < k) (h0 : 0 ≤ n)
    (hn : n < 10 ^ k) : (toString n).length ≤ k :=
  (length_toString_le_iff_of_nonneg hk h0).mpr hn

theorem length_toString_le {n : Int} {k : Nat} (hk : 0 < k) (hlo : -(10 ^ k) < n)
    (hhi : n < 10 ^ k) : (toString n).length ≤ k + 1 := by
  rcases Int.lt_or_le n 0 with hneg | h0
  · exact (length_toString_le_iff_of_neg hk hneg).mpr hlo
  · exact Nat.le_succ_of_le (length_toString_le_of_nonneg hk h0 hhi)

/-! ## Its characters -/

/-- Only digits and the minus sign are in a number. -/
theorem not_mem_toString {c : Char} (hdigit : c.isDigit = false) (hminus : c ≠ '-') (n : Int) :
    c ∉ (toString n).toList := by
  have hdigits : ∀ m : Nat, c ∉ m.repr.toList := by
    intro m hmem
    rw [Nat.toList_repr] at hmem
    have := Nat.isDigit_of_mem_toDigits (by decide) (by decide) hmem
    rw [hdigit] at this
    cases this
  rw [Int.toString_eq_repr, Int.repr_eq_if]
  split
  · exact hdigits _
  · have hsign : "-".toList = ['-'] := rfl
    rw [String.toList_append, hsign, List.singleton_append, List.mem_cons, not_or]
    exact ⟨hminus, hdigits _⟩

theorem toList_toString {n : Int} (h0 : 0 ≤ n) : (toString n).toList = Nat.toDigits 10 n.toNat := by
  rw [Int.toString_eq_repr, Int.repr_eq_if, if_pos h0, Nat.toList_repr]

/-- Different numbers are written differently. -/
theorem toString_injective : Function.Injective (toString : Int → String) := by
  have hnat : ∀ a b : Nat, a.repr = b.repr → a = b := by
    intro a b h
    have hdigits := congrArg (fun s : String => Nat.ofDigitChars 10 s.toList 0) h
    simpa [Nat.toList_repr] using hdigits
  have hsign : ∀ a b : Nat, a.repr ≠ "-" ++ b.repr := by
    intro a b h
    have hmem : '-' ∈ a.repr.toList := by
      rw [h, String.toList_append]
      exact List.mem_append_left _ (List.mem_singleton_self _)
    rw [Nat.toList_repr] at hmem
    exact absurd (Nat.isDigit_of_mem_toDigits (by decide) (by decide) hmem) (by decide)
  intro a b h
  simp only [Int.toString_eq_repr, Int.repr_eq_if] at h
  split at h
  · split at h
    · have := hnat _ _ h
      omega
    · exact absurd h (hsign _ _)
  · split at h
    · exact absurd h.symm (hsign _ _)
    · have := hnat _ _ (String.append_right_inj _ |>.mp h)
      omega

/-! ## Its value -/

/-- What a text of digits with a point among them stands for. -/
def decimalValue (s : List Char) : ℚ :=
  let fraction := (s.dropWhile (· ≠ '.')).tail
  Nat.ofDigitChars 10 (s.takeWhile (· ≠ '.')) 0 +
    Nat.ofDigitChars 10 fraction 0 / 10 ^ fraction.length

/-- What an integer in decimal stands for. -/
def intValue : List Char → Int
  | '-' :: digits => -(Nat.ofDigitChars 10 digits 0)
  | digits => Nat.ofDigitChars 10 digits 0

theorem intValue_toDigits (n : Nat) : intValue (Nat.toDigits 10 n) = n := by
  have hvalue := Nat.ofDigitChars_ten_toDigits (n := n)
  unfold intValue
  split
  · next digits heq =>
      have hminus := Nat.isDigit_of_mem_toDigits (c := '-') (b := 10) (n := n) (by decide)
        (by decide) (heq ▸ List.mem_cons_self)
      cases hminus
  · rw [hvalue]

theorem intValue_toString (n : Int) : intValue (toString n).toList = n := by
  by_cases h0 : 0 ≤ n
  · rw [toList_toString h0, intValue_toDigits, Int.toNat_of_nonneg h0]
  · have hsign : "-".toList = ['-'] := rfl
    rw [Int.toString_eq_repr, Int.repr_eq_if, if_neg h0, String.toList_append, Nat.toList_repr,
      hsign, List.singleton_append, intValue, Nat.ofDigitChars_ten_toDigits]
    omega

/-- Two numbers with a point between them: the second counts according to
the number of its digits. -/
theorem decimalValue_pair (a b : Nat) :
    decimalValue (Nat.toDigits 10 a ++ '.' :: Nat.toDigits 10 b)
      = a + b / 10 ^ (Nat.toDigits 10 b).length := by
  have hdigits : ∀ c ∈ Nat.toDigits 10 a, (decide (c ≠ '.')) = true := by
    intro c hc
    have := Nat.isDigit_of_mem_toDigits (by decide) (by decide) hc
    refine decide_eq_true fun heq => ?_
    rw [heq] at this
    cases this
  have htake : (Nat.toDigits 10 a ++ '.' :: Nat.toDigits 10 b).takeWhile (· ≠ '.')
      = Nat.toDigits 10 a := by
    rw [List.takeWhile_append_of_pos hdigits]
    simp
  have hdrop : (Nat.toDigits 10 a ++ '.' :: Nat.toDigits 10 b).dropWhile (· ≠ '.')
      = '.' :: Nat.toDigits 10 b := by
    rw [List.dropWhile_append_of_pos hdigits]
    simp
  simp only [decimalValue, htake, hdrop, List.tail_cons, Nat.ofDigitChars_ten_toDigits]

/-- Without leading zeros, the digits after the point stand for their number
of units of the last place if and only if they are as many as it has
places, or it is zero. -/
theorem fraction_eq_iff {n k : Nat} (hk : 0 < k) (hn : n < 10 ^ (k + 1)) :
    (n : ℚ) / 10 ^ (Nat.toDigits 10 n).length = n / 10 ^ (k + 1) ↔ n = 0 ∨ 10 ^ k ≤ n := by
  have hle : (Nat.toDigits 10 n).length ≤ k + 1 :=
    (Nat.length_toDigits_le_iff (by decide) (by omega)).mpr hn
  have hshort : (Nat.toDigits 10 n).length ≤ k ↔ n < 10 ^ k :=
    Nat.length_toDigits_le_iff (by decide) hk
  rcases Nat.lt_or_ge n (10 ^ k) with hlt | hge
  · have hlen := hshort.mpr hlt
    constructor
    · intro h
      refine Or.inl ?_
      by_contra hzero
      have hpos : (0 : ℚ) < n := by exact_mod_cast Nat.pos_of_ne_zero hzero
      have hpow : (10 : ℚ) ^ (Nat.toDigits 10 n).length < 10 ^ (k + 1) :=
        pow_lt_pow_right₀ (by norm_num) (by omega)
      have := div_lt_div_of_pos_left hpos (by positivity) hpow
      linarith
    · rintro (rfl | h)
      · simp
      · omega
  · have hlen : (Nat.toDigits 10 n).length = k + 1 := by omega
    rw [hlen]
    simp [hge]

/-! ## Its order -/

/-- `n` with zeros appended up to `k` digits. -/
def padRight (k n : Nat) : Nat := n * 10 ^ (k - (Nat.toDigits 10 n).length)

/-- The digits of `n` after a point stand for `padRight k n` units of the
last of `k` places. -/
theorem fraction_eq_padRight {n k : Nat} (hk : 0 < k) (hn : n < 10 ^ k) :
    (n : ℚ) / 10 ^ (Nat.toDigits 10 n).length = padRight k n / 10 ^ k := by
  have hle : (Nat.toDigits 10 n).length ≤ k :=
    (Nat.length_toDigits_le_iff (by decide) hk).mpr hn
  have hpow : (10 : ℚ) ^ k
      = 10 ^ (Nat.toDigits 10 n).length * 10 ^ (k - (Nat.toDigits 10 n).length) := by
    rw [← pow_add, Nat.add_sub_cancel' hle]
  rw [padRight, hpow]
  push_cast
  field_simp

theorem padRight_lt {n k : Nat} (hk : 0 < k) (hn : n < 10 ^ k) : padRight k n < 10 ^ k := by
  have hle : (Nat.toDigits 10 n).length ≤ k :=
    (Nat.length_toDigits_le_iff (by decide) hk).mpr hn
  have hlt : n < 10 ^ (Nat.toDigits 10 n).length :=
    (Nat.length_toDigits_le_iff (by decide) Nat.length_toDigits_pos).mp (Nat.le_refl _)
  calc padRight k n
      < 10 ^ (Nat.toDigits 10 n).length * 10 ^ (k - (Nat.toDigits 10 n).length) :=
        Nat.mul_lt_mul_of_pos_right hlt (by positivity)
    _ = 10 ^ k := by rw [← pow_add, Nat.add_sub_cancel' hle]

theorem padRight_eq_self {n k : Nat} (hk : 0 < k) (hn : n < 10 ^ (k + 1))
    (hplaces : n = 0 ∨ 10 ^ k ≤ n) : padRight (k + 1) n = n := by
  have h := (fraction_eq_iff hk hn).mpr hplaces
  rw [fraction_eq_padRight (Nat.succ_pos k) hn] at h
  have hpow : (0 : ℚ) < 10 ^ (k + 1) := by positivity
  exact_mod_cast (div_left_inj' hpow.ne').mp h

/-- Two numbers with a point between them are in the order of the first one,
and where that is equal in the order of the second one's digits. -/
theorem decimal_le_iff {a b m n k : Nat} (hk : 0 < k) (hm : m < 10 ^ k) (hn : n < 10 ^ k) :
    (a + m / 10 ^ (Nat.toDigits 10 m).length : ℚ) ≤ b + n / 10 ^ (Nat.toDigits 10 n).length
      ↔ a < b ∨ a = b ∧ padRight k m ≤ padRight k n := by
  have hltm := padRight_lt hk hm
  have hltn := padRight_lt hk hn
  rw [fraction_eq_padRight hk hm, fraction_eq_padRight hk hn]
  have hpow : (0 : ℚ) < 10 ^ k := by positivity
  -- both sides in units of the last place
  have hunits : (a + padRight k m / 10 ^ k : ℚ) ≤ b + padRight k n / 10 ^ k
      ↔ a * 10 ^ k + padRight k m ≤ b * 10 ^ k + padRight k n := by
    rw [← @Nat.cast_le ℚ, ← mul_le_mul_iff_of_pos_right hpow, add_mul, add_mul,
      div_mul_cancel₀ _ hpow.ne', div_mul_cancel₀ _ hpow.ne']
    push_cast
    rfl
  rw [hunits]
  rcases Nat.lt_trichotomy a b with hlt | rfl | hlt
  · have := Nat.mul_le_mul_right (10 ^ k) (Nat.succ_le_of_lt hlt)
    rw [Nat.succ_mul] at this
    omega
  · omega
  · have := Nat.mul_le_mul_right (10 ^ k) (Nat.succ_le_of_lt hlt)
    rw [Nat.succ_mul] at this
    omega

end Transition
