import Mathlib.Data.List.Lex
import Mathlib.Data.List.TakeWhile
import Mathlib.Data.Nat.ModEq
import Mathlib.Order.Lattice
import Mathlib.Tactic.Ring

/-!
# Byte strings

Little-endian words, byte-wise order, and the copies a C string assignment makes.
-/

namespace EncryptedDedup

abbrev Bytes := List UInt8

instance instLinearOrderUInt8 : LinearOrder UInt8 where
  le_refl a := UInt8.le_iff_toNat_le.mpr (Nat.le_refl _)
  le_trans a b c hab hbc :=
    UInt8.le_iff_toNat_le.mpr (Nat.le_trans (UInt8.le_iff_toNat_le.mp hab) (UInt8.le_iff_toNat_le.mp hbc))
  le_antisymm a b hab hba :=
    UInt8.toNat.inj (Nat.le_antisymm (UInt8.le_iff_toNat_le.mp hab) (UInt8.le_iff_toNat_le.mp hba))
  le_total a b := by
    simp only [UInt8.le_iff_toNat_le]
    exact Nat.le_total _ _
  lt_iff_le_not_ge a b := by
    simp only [UInt8.le_iff_toNat_le, UInt8.lt_iff_toNat_lt]
    omega
  toDecidableLE := fun _ _ => inferInstance
  toDecidableLT := fun _ _ => inferInstance
  toDecidableEq := fun _ _ => inferInstance

/-! ### Little-endian words -/

/-- The `w` low bytes of `n`, least significant first. -/
def toLE : Nat → Nat → Bytes
  | 0, _ => []
  | w + 1, n => UInt8.ofNat n :: toLE w (n / 256)

def ofLE : Bytes → Nat
  | [] => 0
  | b :: bs => b.toNat + 256 * ofLE bs

@[simp] theorem length_toLE (w n : Nat) : (toLE w n).length = w := by
  induction w generalizing n with
  | zero => rfl
  | succ w ih => simp [toLE, ih]

theorem ofLE_lt (b : Bytes) : ofLE b < 256 ^ b.length := by
  induction b with
  | nil => decide
  | cons x b ih =>
    have byte := x.toNat_lt
    rw [ofLE, List.length_cons, pow_succ']
    omega

theorem ofLE_append (a b : Bytes) : ofLE (a ++ b) = ofLE a + 256 ^ a.length * ofLE b := by
  induction a with
  | nil => rw [List.nil_append, ofLE, List.length_nil, pow_zero, Nat.zero_add, Nat.one_mul]
  | cons x a ih => rw [List.cons_append, ofLE, ofLE, ih, List.length_cons, pow_succ', Nat.mul_add, Nat.add_assoc, Nat.mul_assoc]

theorem ofLE_toLE (w n : Nat) : ofLE (toLE w n) = n % 256 ^ w := by
  induction w generalizing n with
  | zero => simp [toLE, ofLE, Nat.mod_one]
  | succ w ih =>
    rw [toLE, ofLE, ih, UInt8.toNat_ofNat', pow_succ' 256 w, Nat.mod_mul]

theorem toLE_mod (w n : Nat) : toLE w (n % 256 ^ w) = toLE w n := by
  induction w generalizing n with
  | zero => rfl
  | succ w ih =>
    have low : UInt8.ofNat (n % (256 * 256 ^ w)) = UInt8.ofNat n := by
      apply UInt8.toNat.inj
      rw [UInt8.toNat_ofNat', UInt8.toNat_ofNat']
      exact Nat.mod_mod_of_dvd n (Dvd.intro _ rfl)
    rw [pow_succ', toLE, toLE, low, Nat.mod_mul_right_div_self, ih]

theorem toLE_ofLE (b : Bytes) : toLE b.length (ofLE b) = b := by
  induction b with
  | nil => rfl
  | cons x b ih =>
    have byte := x.toNat_lt
    have low : UInt8.ofNat (x.toNat + 256 * ofLE b) = x := by
      apply UInt8.toNat.inj
      rw [UInt8.toNat_ofNat']
      omega
    have high : (x.toNat + 256 * ofLE b) / 256 = ofLE b := by omega
    rw [List.length_cons, ofLE, toLE, low, high, ih]

/-- An eight-byte counter in memory; `uint64_t` arithmetic is what its bytes keep. -/
def u64 (n : Nat) : Bytes := toLE 8 n

@[simp] theorem length_u64 (n : Nat) : (u64 n).length = 8 := length_toLE 8 n

theorem ofLE_u64 (n : Nat) : ofLE (u64 n) = n % 2 ^ 64 := ofLE_toLE 8 n

theorem u64_inj {i j : Nat} (smallI : i < 2 ^ 64) (smallJ : j < 2 ^ 64) (same : u64 i = u64 j) : i = j := by
  have words := congrArg ofLE same
  rwa [ofLE_u64, ofLE_u64, Nat.mod_eq_of_lt smallI, Nat.mod_eq_of_lt smallJ] at words

theorem u64_ofLE_succ (n : Nat) : u64 (ofLE (u64 n) + 1) = u64 (n + 1) := by
  have wrap : (n % 2 ^ 64 + 1) % 256 ^ 8 = (n + 1) % 256 ^ 8 := Nat.mod_add_mod n (2 ^ 64) 1
  rw [ofLE_u64, u64, ← toLE_mod 8 (n % 2 ^ 64 + 1), wrap, toLE_mod, u64]

/-! ### Records of one width -/

def cutN (w : Nat) : Nat → Bytes → List Bytes
  | 0, _ => []
  | n + 1, s => if s = [] then [] else s.take w :: cutN w n (s.drop w)

def cut (w : Nat) (s : Bytes) : List Bytes := cutN w s.length s

theorem cut_flatten {w : Nat} (positive : 0 < w) {parts : List Bytes} (wide : ∀ p ∈ parts, p.length = w) :
    cut w parts.flatten = parts := by
  have enough : ∀ n, parts.flatten.length ≤ n → cutN w n parts.flatten = parts := by
    induction parts with
    | nil =>
      intro n _
      cases n <;> rfl
    | cons p parts ih =>
      intro n enough
      have width := wide p List.mem_cons_self
      rw [List.flatten_cons, List.length_append] at enough
      obtain ⟨n, rfl⟩ : ∃ m, n = m + 1 := ⟨n - 1, by omega⟩
      have filled : p ++ parts.flatten ≠ [] := by
        apply List.append_ne_nil_of_left_ne_nil
        rw [← List.length_pos_iff, width]
        exact positive
      have rest := ih (fun q member => wide q (List.mem_cons_of_mem _ member)) n (by omega)
      rw [List.flatten_cons, cutN, if_neg filled, List.take_left' width, List.drop_left' width, rest]
  exact enough _ (Nat.le_refl _)

theorem cutN_enough {w : Nat} (positive : 0 < w) {n m : Nat} {s : Bytes} (enough : s.length ≤ n) (enough' : s.length ≤ m) :
    cutN w n s = cutN w m s := by
  induction n generalizing m s with
  | zero =>
    obtain rfl := List.eq_nil_of_length_eq_zero (Nat.le_zero.mp enough)
    cases m <;> rfl
  | succ n ih =>
    cases m with
    | zero =>
      obtain rfl := List.eq_nil_of_length_eq_zero (Nat.le_zero.mp enough')
      rfl
    | succ m =>
      by_cases empty : s = []
      · rw [cutN, cutN, if_pos empty, if_pos empty]
      · have filled := List.length_pos_of_ne_nil empty
        have rest : (s.drop w).length = s.length - w := List.length_drop
        rw [cutN, cutN, if_neg empty, if_neg empty, ih (m := m) (by omega) (by omega)]

theorem cut_cons {w : Nat} {s : Bytes} (positive : 0 < w) (filled : s ≠ []) : cut w s = s.take w :: cut w (s.drop w) := by
  obtain ⟨n, length⟩ := Nat.exists_eq_succ_of_ne_zero (List.length_pos_of_ne_nil filled).ne'
  have rest : (s.drop w).length = s.length - w := List.length_drop
  rw [cut, length, cutN, if_neg filled, cut, cutN_enough positive (by omega) (Nat.le_refl _)]

theorem cut_wide {w n : Nat} {s : Bytes} (whole : s.length = n * w) : ∀ p ∈ cut w s, p.length = w := by
  have each : ∀ (k n : Nat) (s : Bytes), s.length = n * w → ∀ p ∈ cutN w k s, p.length = w := by
    intro k
    induction k with
    | zero => exact fun n s _ p member => absurd member List.not_mem_nil
    | succ k ih =>
      intro n s whole p member
      rw [cutN] at member
      split at member
      · exact absurd member List.not_mem_nil
      · rename_i filled
        obtain ⟨n, rfl⟩ : ∃ m, n = m + 1 := by
          refine ⟨n - 1, (Nat.succ_pred_eq_of_ne_zero fun none => filled ?_).symm⟩
          rw [none, Nat.zero_mul] at whole
          exact List.eq_nil_of_length_eq_zero whole
        rw [Nat.succ_mul] at whole
        rcases List.mem_cons.mp member with rfl | later
        · rw [List.length_take]
          omega
        · exact ih n (s.drop w) (by rw [List.length_drop]; omega) p later
  exact each s.length n s whole

/-! ### C strings -/

/-- The bytes of a C string: everything before the first zero byte. -/
def cstr (b : Bytes) : Bytes := b.takeWhile (· != 0)

/-- `std::string::resize`: cut to `n` bytes, or extend with zero bytes. -/
def resize (n : Nat) (b : Bytes) : Bytes := b.take n ++ List.replicate (n - b.length) 0

@[simp] theorem length_resize (n : Nat) (b : Bytes) : (resize n b).length = n := by
  simp only [resize, List.length_append, List.length_take, List.length_replicate]
  omega

@[simp] theorem resize_length (b : Bytes) : resize b.length b = b := by simp [resize]

theorem cstr_of_not_mem {b : Bytes} (clean : (0 : UInt8) ∉ b) : cstr b = b := by
  rw [cstr, List.takeWhile_eq_self_iff]
  intro x member
  simp only [bne_iff_ne, ne_eq]
  rintro rfl
  exact clean member

theorem zero_not_mem_cstr (b : Bytes) : (0 : UInt8) ∉ cstr b := by
  intro zero
  have seen := List.mem_takeWhile_imp zero
  simp at seen

theorem resize_cstr_idem (n : Nat) (b : Bytes) :
    resize n (cstr (resize n (cstr b))) = resize n (cstr b) := by
  have clean := zero_not_mem_cstr b
  generalize cstr b = c at clean
  by_cases long : n ≤ c.length
  · have cut : resize n c = c.take n := by simp [resize, Nat.sub_eq_zero_of_le long]
    rw [cut, cstr_of_not_mem fun zero => clean (List.mem_of_mem_take zero), resize, List.take_take,
      Nat.min_self, List.length_take, Nat.min_eq_left long, Nat.sub_self, List.replicate_zero,
      List.append_nil]
  · obtain ⟨k, pad⟩ : ∃ k, n - c.length = k + 1 := ⟨n - c.length - 1, by omega⟩
    have padded : resize n c = c ++ 0 :: List.replicate k 0 := by
      rw [resize, pad, List.replicate_succ, List.take_of_length_le (by omega)]
    have visible : cstr (c ++ 0 :: List.replicate k 0) = c := by
      rw [cstr, List.takeWhile_append_of_pos]
      · simp
      · intro x member
        simp only [bne_iff_ne, ne_eq]
        rintro rfl
        exact clean member
    rw [padded, visible, padded]

theorem resize_cstr_eq_self (b : Bytes) :
    resize b.length (cstr b) = b ↔ ∀ l r, b = l ++ 0 :: r → ∀ x ∈ r, x = 0 := by
  induction b with
  | nil => simp [resize, cstr]
  | cons x b ih =>
    by_cases hx : x = 0
    · subst hx
      have dropped : resize (b.length + 1) (cstr (0 :: b)) = 0 :: List.replicate b.length 0 := by
        simp [resize, cstr, List.replicate_succ]
      rw [List.length_cons, dropped]
      constructor
      · intro same l r split y member
        have zeros := (List.cons.inj same).2
        cases l with
        | nil =>
          obtain ⟨-, rfl⟩ := List.cons.inj split
          rw [← zeros] at member
          exact List.eq_of_mem_replicate member
        | cons z l =>
          have inside : y ∈ b := by
            rw [(List.cons.inj split).2]
            exact List.mem_append_right _ (List.mem_cons_of_mem _ member)
          rw [← zeros] at inside
          exact List.eq_of_mem_replicate inside
      · intro tail
        have zeros := List.eq_replicate_iff.mpr ⟨rfl, tail [] b rfl⟩
        exact congrArg (0 :: ·) zeros.symm
    · have kept : resize (b.length + 1) (cstr (x :: b)) = x :: resize b.length (cstr b) := by
        simp [resize, cstr, hx]
      rw [List.length_cons, kept]
      constructor
      · intro same l r split
        have inner := ih.mp (List.cons.inj same).2
        cases l with
        | nil => exact absurd (List.cons.inj split).1 hx
        | cons z l => exact inner l r (List.cons.inj split).2
      · intro tail
        refine congrArg (x :: ·) (ih.mpr ?_)
        intro l r split
        exact tail (x :: l) r (by rw [split, List.cons_append])

end EncryptedDedup
