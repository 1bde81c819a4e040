import Mathlib.Data.Nat.Digits.Lemmas
import Mathlib.Data.Rat.Floor
import Mathlib.Tactic.Ring
import Mathlib.Tactic.Linarith

/-!
# Decimal text

Numbers written in ASCII and read back. Three writers: an unsigned integer, a
signed one, and a rational in fixed point with a given number of fractional
digits, rounded half to even. One reader, for the usual
`[sign] digits [. digits] [e [sign] digits]`.

The results are the round trips. Integers come back exactly; a fixed-point
number comes back as the nearest multiple of its last digit, so within half a
unit of it.
-/

namespace Decimal

/-- The character of a digit. -/
def digit (d : Nat) : UInt8 := UInt8.ofNat (48 + d)

def isDigit (b : UInt8) : Bool := 48 ≤ b && b ≤ 57

def digitVal (b : UInt8) : Nat := b.toNat - 48

/-- The number a digit string stands for. -/
def value (ds : List UInt8) : Nat := ds.foldl (fun acc b => 10 * acc + digitVal b) 0

/-- An unsigned integer, without leading zeros. -/
def natText (n : Nat) : List UInt8 :=
  if n = 0 then [digit 0] else ((Nat.digits 10 n).map digit).reverse

/-- A signed integer; only negative ones carry a sign. -/
def intText : Int → List UInt8
  | .ofNat n => natText n
  | .negSucc n => 45 :: natText (n + 1)

/-- Exactly `k` digits: the last `k` of `n`, with leading zeros. -/
def padText : Nat → Nat → List UInt8
  | 0, _ => []
  | k + 1, n => padText k (n / 10) ++ [digit (n % 10)]

/-- The nearest integer, a tie going to the even neighbour. -/
def roundHalfEven (q : ℚ) : ℤ :=
  let f := ⌊q⌋
  if q - f < 1 / 2 then f
  else if 1 / 2 < q - f then f + 1
  else if f % 2 = 0 then f else f + 1

/-- A non-negative rational with `k` fractional digits. -/
def fixedUnsigned (k : Nat) (q : ℚ) : List UInt8 :=
  let n := (roundHalfEven (q * 10 ^ k)).toNat
  natText (n / 10 ^ k) ++ 46 :: padText k n

/-- A rational with `k` fractional digits; the sign is the number's, even when it rounds to zero. -/
def fixedText (k : Nat) (q : ℚ) : List UInt8 :=
  if q < 0 then 45 :: fixedUnsigned k (-q) else fixedUnsigned k q

/-- The exponent after an `e`: an optional sign and at least one digit, nothing else. -/
def parseExponent (s : List UInt8) : Option Int :=
  let digits (s : List UInt8) : Option Nat :=
    if s ≠ [] ∧ s.all isDigit then some (value s) else none
  match s with
  | 45 :: r => (digits r).map fun n => -(n : Int)
  | 43 :: r => (digits r).map Int.ofNat
  | r => (digits r).map Int.ofNat

/-- A number without its sign. -/
def parseUnsigned (s : List UInt8) : Option ℚ :=
  let ip := s.takeWhile isDigit
  let rest := s.dropWhile isDigit
  let (fp, rest) := match rest with
    | 46 :: r => (r.takeWhile isDigit, r.dropWhile isDigit)
    | r => ([], r)
  if ip = [] ∧ fp = [] then none
  else
    let m : ℚ := value ip + value fp / 10 ^ fp.length
    match rest with
    | [] => some m
    | e :: r => if e = 101 ∨ e = 69 then (parseExponent r).map fun x => m * 10 ^ x else none

/-- A number with an optional sign. -/
def parse : List UInt8 → Option ℚ
  | 45 :: r => (parseUnsigned r).map fun q => -q
  | 43 :: r => parseUnsigned r
  | r => parseUnsigned r

/-! ## Digits -/

theorem digit_toNat {d : Nat} (h : d < 10) : (digit d).toNat = 48 + d := by
  unfold digit
  refine UInt8.toNat_ofNat_of_lt' ?_
  show 48 + d < 256
  omega

@[simp] theorem digitVal_digit {d : Nat} (h : d < 10) : digitVal (digit d) = d := by
  unfold digitVal; rw [digit_toNat h]; omega

theorem isDigit_iff {b : UInt8} : isDigit b = true ↔ 48 ≤ b.toNat ∧ b.toNat ≤ 57 := by
  simp [isDigit, UInt8.le_iff_toNat_le]

theorem isDigit_digit {d : Nat} (h : d < 10) : isDigit (digit d) = true := by
  rw [isDigit_iff, digit_toNat h]; omega

/-! ## The value of a digit string -/

@[simp] theorem value_nil : value [] = 0 := rfl

theorem value_snoc (ds : List UInt8) (b : UInt8) :
    value (ds ++ [b]) = 10 * value ds + digitVal b := by
  simp [value, List.foldl_append]

theorem value_map_digit_reverse :
    ∀ {ds : List Nat}, (∀ d ∈ ds, d < 10) → value (ds.map digit).reverse = Nat.ofDigits 10 ds
  | [], _ => rfl
  | d :: ds, h => by
      have hd : d < 10 := h d (List.mem_cons_self ..)
      have hds : ∀ x ∈ ds, x < 10 := fun x hx => h x (List.mem_cons_of_mem _ hx)
      rw [List.map_cons, List.reverse_cons, value_snoc, value_map_digit_reverse hds,
        digitVal_digit hd, Nat.ofDigits_cons]
      omega

@[simp] theorem value_natText (n : Nat) : value (natText n) = n := by
  unfold natText
  split
  · rename_i h; subst h; rfl
  · rw [value_map_digit_reverse (fun d hd => Nat.digits_lt_base (by omega) hd),
      Nat.ofDigits_digits]

theorem natText_isDigit {n : Nat} : ∀ b ∈ natText n, isDigit b = true := by
  intro b hb
  unfold natText at hb
  split at hb
  · rw [List.mem_singleton] at hb; subst hb; decide
  · obtain ⟨d, hd, rfl⟩ := List.mem_map.mp (List.mem_reverse.mp hb)
    exact isDigit_digit (Nat.digits_lt_base (by omega) hd)

theorem natText_ne_nil (n : Nat) : natText n ≠ [] := by
  unfold natText
  split
  · simp
  · rename_i h; simpa using Nat.digits_ne_nil_iff_ne_zero.mpr h

@[simp] theorem padText_length : ∀ (k n : Nat), (padText k n).length = k
  | 0, _ => rfl
  | k + 1, n => by simp [padText, padText_length k]

theorem padText_isDigit : ∀ {k n : Nat}, ∀ b ∈ padText k n, isDigit b = true
  | 0, _, b, hb => absurd hb (by simp [padText])
  | k + 1, n, b, hb => by
      rcases List.mem_append.mp hb with h | h
      · exact padText_isDigit b h
      · rw [List.mem_singleton] at h; subst h; exact isDigit_digit (Nat.mod_lt _ (by omega))

@[simp] theorem value_padText : ∀ (k n : Nat), value (padText k n) = n % 10 ^ k
  | 0, n => by simp [padText, Nat.mod_one]
  | k + 1, n => by
      have hd : n % 10 < 10 := Nat.mod_lt _ (by omega)
      have hmod : n % 10 ^ (k + 1) = n % 10 + 10 * (n / 10 % 10 ^ k) := by
        rw [pow_succ', Nat.mod_mul]
      rw [padText, value_snoc, value_padText k, digitVal_digit hd, hmod]
      omega

/-! ## Rounding -/

/-- **Rounding moves a number by at most one half.** -/
theorem abs_roundHalfEven_sub_le (q : ℚ) : |(roundHalfEven q : ℚ) - q| ≤ 1 / 2 := by
  have h0 : (⌊q⌋ : ℚ) ≤ q := Int.floor_le q
  have h1 : q < ⌊q⌋ + 1 := Int.lt_floor_add_one q
  unfold roundHalfEven
  dsimp only
  rw [abs_le]
  split_ifs with ha hb hc
  · constructor <;> linarith
  · push_cast; constructor <;> linarith
  · have : q - ⌊q⌋ = 1 / 2 := le_antisymm (not_lt.mp hb) (not_lt.mp ha)
    constructor <;> linarith
  · have : q - ⌊q⌋ = 1 / 2 := le_antisymm (not_lt.mp hb) (not_lt.mp ha)
    push_cast; constructor <;> linarith

theorem roundHalfEven_nonneg {q : ℚ} (h : 0 ≤ q) : 0 ≤ roundHalfEven q := by
  have hf : 0 ≤ ⌊q⌋ := Int.floor_nonneg.mpr h
  unfold roundHalfEven
  dsimp only
  split_ifs <;> omega

/-- **Rounding keeps the order.** Two numbers on either side of an integer's half are apart. -/
theorem roundHalfEven_mono {q r : ℚ} (h : q ≤ r) : roundHalfEven q ≤ roundHalfEven r := by
  by_contra hlt
  rw [not_le] at hlt
  have hq := abs_le.mp (abs_roundHalfEven_sub_le q)
  have hr := abs_le.mp (abs_roundHalfEven_sub_le r)
  have hstep : (roundHalfEven r : ℚ) + 1 ≤ roundHalfEven q := by exact_mod_cast hlt
  -- both are at their half, so they are the same number
  obtain rfl : q = r := by linarith
  exact absurd hlt (lt_irrefl _)

/-- Even steps change nothing about a tie. -/
theorem roundHalfEven_add {q : ℚ} {z : ℤ} (hz : z % 2 = 0) :
    roundHalfEven (q + z) = roundHalfEven q + z := by
  have hparity : (⌊q⌋ + z) % 2 = ⌊q⌋ % 2 := by omega
  have hpart : q + z - ((⌊q⌋ + z : ℤ) : ℚ) = q - ⌊q⌋ := by push_cast; ring
  unfold roundHalfEven
  simp only [Int.floor_add_intCast, hparity, hpart]
  split_ifs <;> ring

/-- The even neighbour of a tie is even on both sides of zero. -/
theorem roundHalfEven_neg (q : ℚ) : roundHalfEven (-q) = -roundHalfEven q := by
  have h0 : (⌊q⌋ : ℚ) ≤ q := Int.floor_le q
  have h1 : q < ⌊q⌋ + 1 := Int.lt_floor_add_one q
  rcases h0.eq_or_lt with hint | hlt
  · -- an integer is not rounded
    have hfloor : ⌊-q⌋ = -⌊q⌋ := by
      rw [← hint, ← Int.cast_neg, Int.floor_intCast, Int.floor_intCast]
    unfold roundHalfEven
    dsimp only
    rw [hfloor, if_pos (by push_cast; linarith), if_pos (by linarith)]
  · have hfloor : ⌊-q⌋ = -⌊q⌋ - 1 := by
      rw [Int.floor_eq_iff]
      push_cast
      constructor <;> linarith
    unfold roundHalfEven
    dsimp only
    rw [hfloor]
    push_cast
    split_ifs <;> first | omega | linarith

/-! ## Reading back -/

/-- A run of digits followed by a non-digit is cut exactly there. -/
theorem takeWhile_digits {ds r : List UInt8} (hds : ∀ b ∈ ds, isDigit b = true)
    (hr : ∀ b ∈ r.head?, isDigit b = false) :
    (ds ++ r).takeWhile isDigit = ds ∧ (ds ++ r).dropWhile isDigit = r := by
  rw [List.takeWhile_append_of_pos hds, List.dropWhile_append_of_pos hds]
  cases r with
  | nil => simp
  | cons b r => simp [hr b rfl]

theorem parse_of_head {s : List UInt8} (h : ∀ b ∈ s.head?, b ≠ 45 ∧ b ≠ 43) :
    parse s = parseUnsigned s := by
  unfold parse
  split
  · exact absurd rfl (h 45 rfl).1
  · exact absurd rfl (h 43 rfl).2
  · rfl

theorem parse_neg (s : List UInt8) : parse (45 :: s) = (parseUnsigned s).map fun q => -q := rfl

/-- A digit string starts with neither sign. -/
theorem head_ne_sign {ds r : List UInt8} (hne : ds ≠ []) (hds : ∀ b ∈ ds, isDigit b = true) :
    ∀ b ∈ (ds ++ r).head?, b ≠ 45 ∧ b ≠ 43 := by
  intro b hb
  rw [List.head?_append_of_ne_nil _ hne] at hb
  have hd := hds b (List.mem_of_mem_head? hb)
  refine ⟨?_, ?_⟩
  · rintro rfl; exact absurd hd (by decide)
  · rintro rfl; exact absurd hd (by decide)

theorem parseUnsigned_digits {ds : List UInt8} (hne : ds ≠ [])
    (hds : ∀ b ∈ ds, isDigit b = true) : parseUnsigned ds = some (value ds : ℚ) := by
  obtain ⟨h1, h2⟩ := takeWhile_digits (r := []) hds (by simp)
  rw [List.append_nil] at h1 h2
  simp [parseUnsigned, h1, h2, hne]

theorem parseUnsigned_point {ds fs : List UInt8} (hne : ds ≠ [])
    (hds : ∀ b ∈ ds, isDigit b = true) (hfs : ∀ b ∈ fs, isDigit b = true) :
    parseUnsigned (ds ++ 46 :: fs) = some (value ds + value fs / 10 ^ fs.length : ℚ) := by
  obtain ⟨h1, h2⟩ := takeWhile_digits (r := 46 :: fs) hds
    (by intro b hb; cases hb; decide)
  obtain ⟨h3, h4⟩ := takeWhile_digits (r := []) hfs (by simp)
  rw [List.append_nil] at h3 h4
  simp [parseUnsigned, h1, h2, h3, h4, hne]

theorem parseExponent_natText (n : Nat) : parseExponent (natText n) = some (n : Int) := by
  have hdigits : natText n ≠ [] ∧ (natText n).all isDigit = true :=
    ⟨natText_ne_nil n, List.all_eq_true.mpr natText_isDigit⟩
  have hhead := head_ne_sign (r := []) (natText_ne_nil n) natText_isDigit
  rw [List.append_nil] at hhead
  unfold parseExponent
  split
  · rename_i h
    exact absurd rfl (hhead 45 (by rw [h]; rfl)).1
  · rename_i h
    exact absurd rfl (hhead 43 (by rw [h]; rfl)).2
  · simp only [if_pos hdigits, Option.map_some, value_natText]
    rfl

/-- **Integers come back exactly**, sign included. -/
theorem parse_intText (z : Int) : parse (intText z) = some (z : ℚ) := by
  cases z with
  | ofNat n =>
      have h := head_ne_sign (r := []) (natText_ne_nil n) natText_isDigit
      rw [List.append_nil] at h
      rw [intText, parse_of_head h, parseUnsigned_digits (natText_ne_nil n) natText_isDigit]
      simp
  | negSucc n =>
      rw [intText, parse_neg, parseUnsigned_digits (natText_ne_nil _) natText_isDigit]
      simp [Int.negSucc_eq]

theorem parseUnsigned_fixedUnsigned (k : Nat) (q : ℚ) :
    parseUnsigned (fixedUnsigned k q)
      = some (((roundHalfEven (q * 10 ^ k)).toNat : ℚ) / 10 ^ k) := by
  unfold fixedUnsigned
  dsimp only
  rw [parseUnsigned_point (natText_ne_nil _) natText_isDigit padText_isDigit,
    value_natText, value_padText, padText_length]
  generalize (roundHalfEven (q * 10 ^ k)).toNat = n
  have hk : (10 : ℚ) ^ k ≠ 0 := by positivity
  have hn : (n : ℚ) = 10 ^ k * (n / 10 ^ k : Nat) + (n % 10 ^ k : Nat) := by
    exact_mod_cast (Nat.div_add_mod n (10 ^ k)).symm
  congr 1
  field_simp
  linarith

theorem fixedUnsigned_head (k : Nat) (q : ℚ) :
    ∀ b ∈ (fixedUnsigned k q).head?, b ≠ 45 ∧ b ≠ 43 :=
  head_ne_sign (natText_ne_nil _) natText_isDigit

/-- **A fixed-point number comes back rounded**, to the multiple of its last digit. -/
theorem parse_fixedText_eq (k : Nat) (q : ℚ) :
    parse (fixedText k q) = some ((roundHalfEven (q * 10 ^ k) : ℚ) / 10 ^ k) := by
  have hcast : ∀ r : ℚ, 0 ≤ r → (((roundHalfEven (r * 10 ^ k)).toNat : ℕ) : ℚ)
      = (roundHalfEven (r * 10 ^ k) : ℚ) := by
    intro r hr
    exact_mod_cast Int.toNat_of_nonneg (roundHalfEven_nonneg (by positivity))
  unfold fixedText
  split
  · rename_i h
    rw [parse_neg, parseUnsigned_fixedUnsigned, hcast (-q) (by linarith), neg_mul,
      roundHalfEven_neg, Option.map_some]
    congr 1
    push_cast
    ring
  · rename_i h
    rw [parse_of_head (fixedUnsigned_head k q), parseUnsigned_fixedUnsigned, hcast q (not_lt.mp h)]

/-- So it is within half a unit of its last digit. -/
theorem parse_fixedText (k : Nat) (q : ℚ) :
    ∃ q', parse (fixedText k q) = some q' ∧ |q' - q| ≤ 1 / 2 / 10 ^ k := by
  have hk : (0 : ℚ) < 10 ^ k := by positivity
  refine ⟨_, parse_fixedText_eq k q, ?_⟩
  have hunit : (roundHalfEven (q * 10 ^ k) : ℚ) / 10 ^ k - q
      = ((roundHalfEven (q * 10 ^ k) : ℚ) - q * 10 ^ k) / 10 ^ k := by
    field_simp
  rw [hunit, abs_div, abs_of_pos hk]
  exact div_le_div_of_nonneg_right (abs_roundHalfEven_sub_le _) hk.le

/-! ## What the texts are made of -/

/-- The characters of a written number: a digit, a minus sign or a point. -/
def isNumChar (b : UInt8) : Bool := isDigit b || b == 45 || b == 46

theorem isNumChar_of_isDigit {b : UInt8} (h : isDigit b = true) : isNumChar b = true := by
  simp [isNumChar, h]

theorem intText_isNumChar (z : Int) : ∀ b ∈ intText z, isNumChar b = true := by
  intro b hb
  cases z with
  | ofNat n => exact isNumChar_of_isDigit (natText_isDigit b hb)
  | negSucc n =>
      rcases List.mem_cons.mp hb with rfl | h
      · decide
      · exact isNumChar_of_isDigit (natText_isDigit b h)

theorem fixedUnsigned_isNumChar (k : Nat) (q : ℚ) :
    ∀ b ∈ fixedUnsigned k q, isNumChar b = true := by
  intro b hb
  rcases List.mem_append.mp hb with h | h
  · exact isNumChar_of_isDigit (natText_isDigit b h)
  · rcases List.mem_cons.mp h with rfl | h
    · decide
    · exact isNumChar_of_isDigit (padText_isDigit b h)

theorem fixedText_isNumChar (k : Nat) (q : ℚ) : ∀ b ∈ fixedText k q, isNumChar b = true := by
  intro b hb
  unfold fixedText at hb
  split at hb
  · rcases List.mem_cons.mp hb with rfl | h
    · decide
    · exact fixedUnsigned_isNumChar k _ b h
  · exact fixedUnsigned_isNumChar k q b hb

theorem intText_ne_nil (z : Int) : intText z ≠ [] := by
  cases z with
  | ofNat n => exact natText_ne_nil n
  | negSucc n => exact List.cons_ne_nil _ _

theorem fixedText_ne_nil (k : Nat) (q : ℚ) : fixedText k q ≠ [] := by
  unfold fixedText fixedUnsigned
  split <;> simp

/-! ## How long the texts are -/

theorem natText_length_le {n k : Nat} (hk : 0 < k) (h : n < 10 ^ k) : (natText n).length ≤ k := by
  unfold natText
  split
  · exact hk
  · rw [List.length_reverse, List.length_map, Nat.digits_length_le_iff (by decide)]
    exact h

theorem intText_length_le {z : Int} {k : Nat} (hk : 0 < k) (h : z.natAbs < 10 ^ k) :
    (intText z).length ≤ k + 1 := by
  cases z with
  | ofNat n => exact (natText_length_le hk h).trans (Nat.le_succ k)
  | negSucc n => exact Nat.succ_le_succ (natText_length_le hk h)

/-- Rounding does not get past an integer. -/
theorem roundHalfEven_le {q : ℚ} {z : ℤ} (h : q ≤ z) : roundHalfEven q ≤ z := by
  have hfloor : ⌊q⌋ ≤ z := by
    have hle : (⌊q⌋ : ℚ) ≤ z := (Int.floor_le q).trans h
    exact_mod_cast hle
  unfold roundHalfEven
  dsimp only
  split_ifs with hlow hhigh heven
  · exact hfloor
  all_goals
    -- it is rounded up from below the integer only
    rcases hfloor.lt_or_eq with hlt | heq
    · omega
    · rw [heq] at hlow
      linarith

theorem fixedUnsigned_length_le {k m : Nat} {q : ℚ} (h : q ≤ 10 ^ m) :
    (fixedUnsigned k q).length ≤ m + k + 2 := by
  have hround : roundHalfEven (q * 10 ^ k) ≤ (10 ^ (m + k) : ℤ) := by
    refine roundHalfEven_le ?_
    push_cast
    rw [pow_add]
    exact mul_le_mul_of_nonneg_right h (by positivity)
  have hn : (roundHalfEven (q * 10 ^ k)).toNat ≤ 10 ^ (m + k) := by
    rw [Int.toNat_le]
    exact_mod_cast hround
  have hdiv : (roundHalfEven (q * 10 ^ k)).toNat / 10 ^ k < 10 ^ (m + 1) := by
    rw [Nat.div_lt_iff_lt_mul (by positivity), ← pow_add]
    exact hn.trans_lt (Nat.pow_lt_pow_right (by decide) (by omega))
  have hlen := natText_length_le (Nat.succ_pos m) hdiv
  rw [fixedUnsigned, List.length_append, List.length_cons, padText_length]
  omega

theorem fixedText_length_le {k m : Nat} {q : ℚ} (h : |q| ≤ 10 ^ m) :
    (fixedText k q).length ≤ m + k + 3 := by
  obtain ⟨hlow, hhigh⟩ := abs_le.mp h
  unfold fixedText
  split
  · exact Nat.succ_le_succ (fixedUnsigned_length_le (by linarith))
  · exact (fixedUnsigned_length_le hhigh).trans (Nat.le_succ _)

end Decimal
