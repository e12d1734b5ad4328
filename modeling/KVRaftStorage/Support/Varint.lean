import Mathlib.Data.List.Basic
import Mathlib.Tactic.Ring

/-!
# Base-128 varints

A number is written in groups of seven bits, lowest first, and every byte but
the last has its high bit set.  Writer and reader take a bound on the number of
continued bytes.  The reader gives back what was written and leaves the bytes
behind it, and nothing shorter than what the writer produces is read as the
same number.
-/

namespace Varint

/-- Write `n` with at most `k` continued bytes. -/
def encode : ℕ → ℕ → List UInt8
  | 0, n => [UInt8.ofNat n]
  | k + 1, n =>
      if n < 128 then [UInt8.ofNat n]
      else UInt8.ofNat (n % 128 + 128) :: encode k (n / 128)

/-- Read a number with at most `k` continued bytes, and the bytes behind it. -/
def decode : ℕ → List UInt8 → Option (ℕ × List UInt8)
  | _, [] => none
  | 0, b :: bytes => if b.toNat < 128 then some (b.toNat, bytes) else none
  | k + 1, b :: bytes =>
      if b.toNat < 128 then some (b.toNat, bytes)
      else
        match decode k bytes with
        | none => none
        | some (n, rest) => some (b.toNat - 128 + 128 * n, rest)

variable {k k' n n' : ℕ} {bytes rest : List UInt8}

theorem toNat_ofNat_of_lt {n : ℕ} (h : n < 256) : (UInt8.ofNat n).toNat = n := by
  rw [UInt8.toNat_ofNat']
  omega

/-- What was written is read back, with whatever follows. -/
theorem decode_encode (hk : k ≤ k') (hn : n < 128 ^ (k + 1))
    (rest : List UInt8) : decode k' (encode k n ++ rest) = some (n, rest) := by
  induction k generalizing k' n with
  | zero =>
      have hlt : n < 128 := by simpa using hn
      have hbyte := toNat_ofNat_of_lt (n := n) (by omega)
      cases k' with
      | zero => simp only [encode, List.cons_append, List.nil_append, decode,
          hbyte, if_pos hlt]
      | succ k' => simp only [encode, List.cons_append, List.nil_append, decode,
          hbyte, if_pos hlt]
  | succ k ih =>
      obtain ⟨k', rfl⟩ : ∃ j, k' = j + 1 := ⟨k' - 1, by omega⟩
      unfold encode
      split
      · next hlt =>
          have hbyte := toNat_ofNat_of_lt (n := n) (by omega)
          simp only [List.cons_append, List.nil_append, decode, hbyte,
            if_pos hlt]
      · have hbyte := toNat_ofNat_of_lt (n := n % 128 + 128) (by omega)
        have hrest : n / 128 < 128 ^ (k + 1) := by
          rw [Nat.div_lt_iff_lt_mul (by omega)]
          rwa [pow_succ] at hn
        have hread := ih (show k ≤ k' by omega) hrest
        simp only [List.cons_append, decode, hbyte, hread]
        rw [if_neg (by omega)]
        simp only [Option.some.injEq, Prod.mk.injEq, and_true]
        omega

/-- A number below `128 ^ (j + 1)` takes at most `j + 1` bytes. -/
theorem length_encode_le {j : ℕ} (hn : n < 128 ^ (j + 1)) (hj : j ≤ k) :
    (encode k n).length ≤ j + 1 := by
  induction k generalizing j n with
  | zero => simp [encode]
  | succ k ih =>
      unfold encode
      split
      · simp
      · next hge =>
          cases j with
          | zero => omega
          | succ j =>
              have hrest : n / 128 < 128 ^ (j + 1) := by
                rw [Nat.div_lt_iff_lt_mul (by omega)]
                rwa [pow_succ] at hn
              simpa using ih hrest (by omega)

theorem length_encode_le_bound (k n : ℕ) : (encode k n).length ≤ k + 1 := by
  induction k generalizing n with
  | zero => simp [encode]
  | succ k ih =>
      unfold encode
      split
      · simp
      · simpa using ih (n / 128)

/-- The bytes that were read bound the number. -/
theorem decode_lt (h : decode k bytes = some (n, rest)) :
    ∃ j, bytes.length = rest.length + (j + 1) ∧ n < 128 ^ (j + 1) := by
  induction k generalizing bytes n rest with
  | zero =>
      cases bytes with
      | nil => simp [decode] at h
      | cons b bytes =>
          simp only [decode, Option.ite_none_right_eq_some, Option.some.injEq,
            Prod.mk.injEq] at h
          obtain ⟨hlt, rfl, rfl⟩ := h
          exact ⟨0, by simp, by simpa using hlt⟩
  | succ k ih =>
      cases bytes with
      | nil => simp [decode] at h
      | cons b bytes =>
          simp only [decode] at h
          split at h
          · next hlt =>
              obtain ⟨rfl, rfl⟩ : b.toNat = n ∧ bytes = rest := by simpa using h
              exact ⟨0, by simp, by simpa using hlt⟩
          · split at h
            · cases h
            · next m rest' hdecode =>
                obtain ⟨rfl, rfl⟩ : _ = n ∧ rest' = rest := by simpa using h
                obtain ⟨j, hlen, hm⟩ := ih hdecode
                refine ⟨j + 1, by simp [hlen]; omega, ?_⟩
                have hb : b.toNat < 256 := b.toNat_lt
                rw [pow_succ]
                omega

/-- No encoding is shorter than the written one. -/
theorem length_encode_add_le (h : decode k' bytes = some (n, rest))
    (hn : n' ≤ n) : (encode k n').length + rest.length ≤ bytes.length := by
  obtain ⟨j, hlen, hlt⟩ := decode_lt h
  have hbytes : (encode k n').length ≤ j + 1 := by
    by_cases hj : j ≤ k
    · exact length_encode_le (hn.trans_lt hlt) hj
    · have := length_encode_le_bound k n'
      omega
  omega

end Varint
