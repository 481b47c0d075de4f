import Mathlib.Algebra.Order.Field.Power
import Mathlib.Algebra.Order.Ring.Rat
import Mathlib.Tactic.Linarith
import Mathlib.Tactic.Positivity
import Mathlib.Tactic.Ring
import ApiManifest.Data.Tree

/-!
# What keys stand for

Two keys of a mapping are the same if they are written alike, but also if they are equal numbers or
one and the same instant: `1`, `1.0` and `true` are one key. So a key stands for something: for a
number, for an instant, for a text, for a tuple of such. Two keys are the same exactly if they stand
for the same, which makes sameness of keys an equivalence.

The exception is what is not a number. It is not even the same as itself, so it is no sound key.
-/

namespace ApiManifest

/-- What a scalar stands for as a key. -/
inductive ScalarForm where
  | null
  | number (value : ℚ)
  | infinite (negative : Bool)
  | text (s : String)
  | bytes (b : List UInt8)

/-- What a key stands for. A time is an instant if its distance is known, else the reading of a
clock. -/
inductive KeyForm where
  | scalar (form : ScalarForm)
  | date (d : Date)
  | dateTime (isInstant : Bool) (seconds : Int) (microsecond : Nat)
  | tuple (items : List KeyForm)

/-! ## Numbers -/

namespace Binary64

/-- Whether this is a number, in its only form: if the mantissa does not have all its bits, the
exponent is the smallest one. -/
def isNumber : Binary64 → Bool
  | nan => false
  | infinite _ => true
  | finite _ m e => m < 2 * leastFull && minExponent ≤ e && (leastFull ≤ m || e == minExponent)

/-- The value of a finite number. -/
def value (negative : Bool) (m : Nat) (e : Int) : ℚ :=
  let size : ℚ := m * (2 : ℚ) ^ e
  if negative then -size else size

theorem twoPow_eq (e : Int) : ((twoPow e).1 : ℚ) / (twoPow e).2 = (2 : ℚ) ^ e := by
  unfold twoPow power
  rw [Nat.pow_eq, Nat.pow_eq, Nat.cast_pow, Nat.cast_pow, Nat.cast_ofNat]
  rcases Int.le_total 0 e with h | h
  · obtain ⟨n, rfl⟩ := Int.eq_ofNat_of_zero_le h
    simp
  · obtain ⟨n, hn⟩ := Int.eq_ofNat_of_zero_le (Int.neg_nonneg.mpr h)
    obtain rfl : e = -(n : Int) := by omega
    simp

theorem twoPow_pos (e : Int) : 0 < (twoPow e).2 := by
  unfold twoPow power
  exact Nat.pow_pos (by decide)

/-- The fraction of a finite number is its value. -/
theorem ratio_eq (s : Bool) (m : Nat) (e : Int) :
    ((ratio s m e).1 : ℚ) / (ratio s m e).2 = value s m e := by
  unfold ratio value
  dsimp only
  rw [← twoPow_eq e]
  cases s
  · rw [if_neg Bool.false_ne_true, if_neg Bool.false_ne_true]
    push_cast
    ring
  · rw [if_pos rfl, if_pos rfl]
    push_cast
    ring

theorem isInt_finite_iff {s : Bool} {m : Nat} {e n : Int} :
    (finite s m e).isInt n = true ↔ value s m e = n := by
  have hpos : (0 : ℚ) < (ratio s m e).2 := Nat.cast_pos.mpr (twoPow_pos e)
  unfold isInt
  rw [← ratio_eq, div_eq_iff hpos.ne', beq_iff_eq]
  exact_mod_cast Iff.rfl

theorem isNumber_finite_iff {s : Bool} {m : Nat} {e : Int} : (finite s m e).isNumber = true ↔
    m < 2 * leastFull ∧ minExponent ≤ e ∧ (leastFull ≤ m ∨ e = minExponent) := by
  simp [isNumber, and_assoc]

/-- Numbers of one size have one form. -/
theorem form_unique {s t : Bool} {m n : Nat} {e f : Int} (hm : (finite s m e).isNumber = true)
    (hn : (finite t n f).isNumber = true) (h : (m : ℚ) * 2 ^ e = n * 2 ^ f) : m = n ∧ e = f := by
  wlog hle : e ≤ f generalizing s t m n e f
  · obtain ⟨rfl, rfl⟩ := this hn hm h.symm (by omega)
    exact ⟨rfl, rfl⟩
  obtain ⟨hlt, hleast, -⟩ := isNumber_finite_iff.mp hm
  obtain ⟨-, -, hfull⟩ := isNumber_finite_iff.mp hn
  obtain ⟨k, hk⟩ := Int.eq_ofNat_of_zero_le (Int.sub_nonneg.mpr hle)
  obtain rfl : f = e + k := by omega
  have hpos : (2 : ℚ) ^ e ≠ 0 := by positivity
  have hshift : m = n * 2 ^ k := by
    rw [zpow_add₀ two_ne_zero, mul_left_comm, mul_comm ((2 : ℚ) ^ e), zpow_natCast] at h
    exact_mod_cast mul_right_cancel₀ hpos h
  cases k with
  | zero => exact ⟨by simpa using hshift, by simp⟩
  | succ k =>
      -- the larger exponent is not the smallest one, so its mantissa has all bits, and one bit more
      -- is too many
      have hall : leastFull ≤ n := hfull.resolve_right (by omega)
      have hmore : 2 * leastFull ≤ m := by
        rw [hshift, Nat.pow_succ, ← Nat.mul_assoc, Nat.mul_comm 2]
        exact Nat.mul_le_mul_right 2 (hall.trans (Nat.le_mul_of_pos_right n (by positivity)))
      omega

theorem abs_value (s : Bool) (m : Nat) (e : Int) : |value s m e| = m * 2 ^ e := by
  have hsize : (0 : ℚ) ≤ m * 2 ^ e := by positivity
  unfold value
  dsimp only
  split
  · rw [abs_neg, abs_of_nonneg hsize]
  · exact abs_of_nonneg hsize

theorem sameValue_finite_iff {s t : Bool} {m n : Nat} {e f : Int}
    (hm : (finite s m e).isNumber = true) (hn : (finite t n f).isNumber = true) :
    (finite s m e).sameValue (finite t n f) = true ↔ value s m e = value t n f := by
  have hsame : (finite s m e).sameValue (finite t n f) = true ↔
      (m = 0 ∧ n = 0) ∨ (s = t ∧ m = n ∧ e = f) := by
    simp [sameValue, and_assoc]
  rw [hsame]
  constructor
  · rintro (⟨rfl, rfl⟩ | ⟨rfl, rfl, rfl⟩)
    · simp [value]
    · rfl
  · intro h
    have habs : (m : ℚ) * 2 ^ e = n * 2 ^ f := by rw [← abs_value s, ← abs_value t, h]
    obtain ⟨rfl, rfl⟩ := form_unique hm hn habs
    by_cases hzero : m = 0
    · exact .inl ⟨hzero, hzero⟩
    · refine .inr ⟨?_, rfl, rfl⟩
      have hpos : (0 : ℚ) < m * 2 ^ e := by positivity
      cases s <;> cases t
      · rfl
      · replace h : (m : ℚ) * 2 ^ e = -(m * 2 ^ e) := h
        linarith
      · replace h : -((m : ℚ) * 2 ^ e) = m * 2 ^ e := h
        linarith
      · rfl

end Binary64

/-! ## Scalars -/

namespace Scalar

/-- Whether the scalar is a sound key: all but what is not a number is. -/
def isSound : Scalar → Bool
  | float x => x.isNumber
  | _ => true

/-- What the scalar stands for as a key. -/
def form : Scalar → ScalarForm
  | null | float .nan => .null
  | bool b => .number (if b then 1 else 0)
  | int n => .number n
  | float (.finite s m e) => .number (Binary64.value s m e)
  | float (.infinite s) => .infinite s
  | text s => .text s
  | bytes b => .bytes b

theorem form_of_int? {a : Scalar} {n : Int} (h : a.int? = some n) : a.form = .number n := by
  cases a with
  | bool b => cases h; cases b <;> simp [form]
  | int m => cases h; rfl
  | _ => cases h

/-- A number is an integer just if it stands for it. -/
theorem isInt_iff {x : Binary64} (hx : x.isNumber = true) (n : Int) :
    x.isInt n = true ↔ (float x).form = .number n := by
  cases x with
  | nan => cases hx
  | infinite s => simp [Binary64.isInt, form]
  | finite s m e => rw [Binary64.isInt_finite_iff, form, ScalarForm.number.injEq]

theorem sameValue_iff {x y : Binary64} (hx : x.isNumber = true) (hy : y.isNumber = true) :
    x.sameValue y = true ↔ (float x).form = (float y).form := by
  cases x with
  | nan => cases hx
  | infinite s => cases y <;> simp_all [Binary64.sameValue, Binary64.isNumber, form]
  | finite s m e =>
      cases y with
      | nan => cases hy
      | infinite t => simp [Binary64.sameValue, form]
      | finite t n f =>
          rw [Binary64.sameValue_finite_iff hx hy, form, form, ScalarForm.number.injEq]

/-- A number stands for none of the things that scalars of other kinds stand for. -/
theorem form_float_ne {x : Binary64} (hx : x.isNumber = true) {b : Scalar} (hb : ∀ y, b ≠ float y)
    (hint : b.int? = none) : (float x).form ≠ b.form := by
  cases b with
  | float y => exact absurd rfl (hb y)
  | bool b => cases hint
  | int n => cases hint
  | _ =>
      cases x with
      | nan => cases hx
      | _ => simp [form]

/-- A number is the same key as a scalar of another kind just if it is the integer that this one
stands for. -/
theorem any_isInt_iff {x : Binary64} (hx : x.isNumber = true) {b : Scalar}
    (hb : ∀ y, b ≠ float y) : b.int?.any x.isInt = true ↔ (float x).form = b.form := by
  cases hint : b.int? with
  | some n => rw [Option.any_some, isInt_iff hx, form_of_int? hint]
  | none => exact iff_of_false Bool.false_ne_true (form_float_ne hx hb hint)

theorem same_iff_of_int? {a b : Scalar} {m : Int} (ha : a.int? = some m) (hb : ∀ x, b ≠ float x)
    (hsame : a.same b = b.int?.any (m == ·)) : a.same b = true ↔ a.form = b.form := by
  rw [hsame, form_of_int? ha]
  cases hn : b.int? with
  | some n =>
      rw [form_of_int? hn, Option.any_some, beq_iff_eq, ScalarForm.number.injEq, Int.cast_inj]
  | none =>
      cases b with
      | float x => exact absurd rfl (hb x)
      | bool q => cases hn
      | int n => cases hn
      | _ => simp [form]

theorem same_iff_of_not_float {a b : Scalar} (ha : ∀ x, a ≠ float x) (hb : ∀ x, b ≠ float x) :
    a.same b = true ↔ a.form = b.form := by
  cases a with
  | float x => exact absurd rfl (ha x)
  | bool p =>
      refine same_iff_of_int? rfl hb ?_
      cases b <;> first | rfl | exact absurd rfl (hb _)
  | int m =>
      refine same_iff_of_int? rfl hb ?_
      cases b <;> first | rfl | exact absurd rfl (hb _)
  | _ =>
      cases b with
      | float x => exact absurd rfl (hb x)
      | _ => simp [same, int?, form]

/-- A number is the same key as a scalar of another kind just if both stand for the same. -/
theorem same_float_iff {x : Binary64} (hx : x.isNumber = true) {b : Scalar}
    (hb : ∀ y, b ≠ float y) :
    ((float x).same b = true ↔ (float x).form = b.form) ∧
      (b.same (float x) = true ↔ b.form = (float x).form) := by
  have hboth : (float x).same b = b.int?.any x.isInt ∧ b.same (float x) = b.int?.any x.isInt := by
    cases b with
    | float y => exact absurd rfl (hb y)
    | _ => exact ⟨rfl, rfl⟩
  rw [hboth.1, hboth.2, any_isInt_iff hx hb]
  exact ⟨Iff.rfl, eq_comm⟩

/-- **Sound scalars are the same key exactly if they stand for the same.** -/
theorem same_iff {a b : Scalar} (ha : a.isSound = true) (hb : b.isSound = true) :
    a.same b = true ↔ a.form = b.form := by
  by_cases hx : ∃ x, a = float x
  · obtain ⟨x, rfl⟩ := hx
    by_cases hy : ∃ y, b = float y
    · obtain ⟨y, rfl⟩ := hy
      exact sameValue_iff ha hb
    · exact (same_float_iff ha fun y h => hy ⟨y, h⟩).1
  · have hx : ∀ x, a ≠ float x := fun x h => hx ⟨x, h⟩
    by_cases hy : ∃ y, b = float y
    · obtain ⟨y, rfl⟩ := hy
      exact (same_float_iff hb hx).2
    · exact same_iff_of_not_float hx fun y h => hy ⟨y, h⟩

end Scalar

/-! ## Keys -/

namespace Tree

mutual

/-- Whether the value is a sound key: one that can be a key, without anything in it that is not a
number. -/
def isSoundKey : Tree → Bool
  | scalar s => s.isSound
  | date _ | dateTime _ => true
  | tuple items => areSoundKeys items
  | list _ | set _ | map _ => false

/-- Whether all the values are sound keys. -/
def areSoundKeys : List Tree → Bool
  | [] => true
  | x :: xs => isSoundKey x && areSoundKeys xs

end

mutual

/-- What a key stands for. -/
def keyForm : Tree → KeyForm
  | scalar s => .scalar s.form
  | date d => .date d
  | dateTime t => .dateTime t.offset.isSome (t.clock - t.offset.getD 0) t.microsecond
  | tuple items => .tuple (keyForms items)
  | list _ | set _ | map _ => .tuple []

/-- What the keys in a tuple stand for. -/
def keyForms : List Tree → List KeyForm
  | [] => []
  | x :: xs => keyForm x :: keyForms xs

end

theorem same_dateTime_iff {s t : DateTime} :
    s.same t = true ↔ (dateTime s).keyForm = (dateTime t).keyForm := by
  unfold DateTime.same keyForm
  cases s.offset <;> cases t.offset <;> simp [and_comm]

mutual

/-- **Sound keys are the same exactly if they stand for the same.** -/
theorem sameKey_iff : ∀ {a b : Tree}, a.isSoundKey = true → b.isSoundKey = true →
    (a.sameKey b = true ↔ a.keyForm = b.keyForm)
  | scalar s, b, ha, hb => by
      cases b with
      | scalar t =>
          rw [sameKey, keyForm, keyForm, KeyForm.scalar.injEq]
          exact Scalar.same_iff ha hb
      | _ => simp [sameKey, keyForm]
  | date d, b, _, _ => by cases b <;> simp [sameKey, keyForm]
  | dateTime t, b, _, _ => by
      cases b with
      | dateTime u => exact same_dateTime_iff
      | _ => simp [sameKey, keyForm]
  | tuple xs, b, hx, hb => by
      cases b with
      | tuple ys =>
          rw [sameKey, keyForm, keyForm, KeyForm.tuple.injEq]
          exact sameKeys_iff hx hb
      | list _ | set _ | map _ => cases hb
      | _ => simp [sameKey, keyForm]

theorem sameKeys_iff : ∀ {xs ys : List Tree}, areSoundKeys xs = true → areSoundKeys ys = true →
    (sameKeys xs ys = true ↔ keyForms xs = keyForms ys)
  | [], [], _, _ => by simp [sameKeys, keyForms]
  | [], _ :: _, _, _ => by simp [sameKeys, keyForms]
  | _ :: _, [], _, _ => by simp [sameKeys, keyForms]
  | x :: xs, y :: ys, hx, hy => by
      obtain ⟨hx, hxs⟩ := Bool.and_eq_true_iff.mp hx
      obtain ⟨hy, hys⟩ := Bool.and_eq_true_iff.mp hy
      rw [sameKeys, keyForms, keyForms, Bool.and_eq_true_iff, List.cons.injEq]
      exact and_congr (sameKey_iff hx hy) (sameKeys_iff hxs hys)

end

variable {a b c : Tree}

theorem sameKey_self (ha : a.isSoundKey = true) : a.sameKey a = true := (sameKey_iff ha ha).mpr rfl

theorem sameKey_comm (ha : a.isSoundKey = true) (hb : b.isSoundKey = true) :
    a.sameKey b = b.sameKey a := by
  rw [Bool.eq_iff_iff, sameKey_iff ha hb, sameKey_iff hb ha, eq_comm]

/-- A key that is the same as another one is the same as the same keys. -/
theorem sameKey_congr (ha : a.isSoundKey = true) (hb : b.isSoundKey = true)
    (hc : c.isSoundKey = true) (h : a.sameKey b = true) : a.sameKey c = b.sameKey c := by
  rw [Bool.eq_iff_iff, sameKey_iff ha hc, sameKey_iff hb hc, (sameKey_iff ha hb).mp h]

theorem isSoundKey_of_mem {items : List Tree} (h : (tuple items).isSoundKey = true)
    (ha : a ∈ items) : a.isSoundKey = true := by
  replace h : areSoundKeys items = true := h
  induction items with
  | nil => cases ha
  | cons x xs ih =>
      obtain ⟨hx, hxs⟩ := Bool.and_eq_true_iff.mp h
      rcases List.mem_cons.mp ha with rfl | hmem
      · exact hx
      · exact ih hmem hxs

end Tree
end ApiManifest
