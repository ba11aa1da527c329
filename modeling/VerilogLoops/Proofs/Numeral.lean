import Mathlib.Algebra.Group.Nat.Defs
import VerilogLoops.Number.Numeral
import VerilogLoops.Text.Quoted

/-!
# Numerals stand for the numbers they are written for

Digits are written by dividing again and again by the base and read by multiplying with it.

> `valueInBase_toDigits`: the digits of a number in a base stand for the number, also if each of
> them is spelled in another way that has the same value.
-/

namespace VerilogLoops.Number

open VerilogLoops.Text

theorem valueInBase_append (base : Nat) (ds es : List Char) :
    valueInBase base (ds ++ es) = es.foldl (fun n d => n * base + digitValue d) (valueInBase base ds) := by
  simp [valueInBase, List.foldl_append]

theorem valueInBase_concat (base : Nat) (ds : List Char) (d : Char) :
    valueInBase base (ds ++ [d]) = valueInBase base ds * base + digitValue d := by
  simp [valueInBase_append]

/-- Zeros in front do not count. -/
theorem valueInBase_zeros (base k : Nat) (ds : List Char) :
    valueInBase base (List.replicate k '0' ++ ds) = valueInBase base ds := by
  induction k with
  | zero => rfl
  | succ k ih =>
    rw [List.replicate_succ, List.cons_append, valueInBase, List.foldl_cons]
    have hzero : 0 * base + digitValue '0' = 0 := by
      rw [Nat.zero_mul]
      decide
    rw [hzero]
    exact ih

/-- The digits of a number, in whatever way each of them is spelled, stand for the number. -/
theorem valueInBase_toDigits {base : Nat} (hbase : 1 < base) (spelled : Char → Char)
    (hspelled : ∀ d : Nat, d < base → digitValue (spelled d.digitChar) = d) (n : Nat) :
    valueInBase base ((Nat.toDigits base n).map spelled) = n := by
  induction n using Nat.strongRecOn with
  | ind n ih =>
    rcases Nat.lt_or_ge n base with hlt | hge
    · rw [Nat.toDigits_of_lt_base hlt]
      simp [valueInBase, hspelled n hlt]
    · have hless : n / base < n := Nat.div_lt_self (by omega) hbase
      rw [Nat.toDigits_of_base_le hbase hge, List.map_append, List.map_singleton,
        valueInBase_concat, ih _ hless, hspelled _ (Nat.mod_lt _ (by omega)), Nat.mul_comm]
      exact Nat.div_add_mod n base

theorem exists_digit_of_mem_toDigits {base n : Nat} {c : Char} (hbase : 1 < base)
    (h : c ∈ Nat.toDigits base n) : ∃ d < base, c = d.digitChar := by
  induction n using Nat.strongRecOn with
  | ind n ih =>
    rcases Nat.lt_or_ge n base with hlt | hge
    · rw [Nat.toDigits_of_lt_base hlt, List.mem_singleton] at h
      exact ⟨n, hlt, h⟩
    · rw [Nat.toDigits_of_base_le hbase hge, List.mem_append, List.mem_singleton] at h
      rcases h with h | h
      · exact ih _ (Nat.div_lt_self (by omega) hbase) h
      · exact ⟨n % base, Nat.mod_lt _ (by omega), h⟩

theorem digitValue_digitChar : ∀ d : Nat, d < 16 → digitValue d.digitChar = d := by decide

theorem digitValue_upper : ∀ d : Nat, d < 16 → digitValue d.digitChar.toUpper = d := by decide

/-- Decimal digits stand for the number. -/
theorem decimalValue_toDigits (n : Nat) : decimalValue (Nat.toDigits 10 n) = n := by
  have h := valueInBase_toDigits (by decide : 1 < 10) id
    (fun d hd => digitValue_digitChar d (by omega)) n
  rwa [List.map_id] at h

/-- No digit but the last one of a number less than the base is a zero at the head. -/
theorem head?_toDigits_ne_zero {n : Nat} (h : 0 < n) : (Nat.toDigits 10 n).head? ≠ some '0' := by
  induction n using Nat.strongRecOn with
  | ind n ih =>
    rcases Nat.lt_or_ge n 10 with hlt | hge
    · rw [Nat.toDigits_of_lt_base hlt]
      have key : ∀ d : Nat, d < 10 → 0 < d → [d.digitChar].head? ≠ some '0' := by decide
      exact key n hlt h
    · have hpos : 0 < n / 10 := Nat.div_pos hge (by decide)
      have hrest := ih _ (Nat.div_lt_self h (by decide)) hpos
      rw [Nat.toDigits_of_base_le (by decide) hge]
      cases hds : Nat.toDigits 10 (n / 10) with
      | nil => exact absurd hds Nat.toDigits_ne_nil
      | cons d ds => simpa [hds] using hrest

/-- A number less than the limit has digits that are read. -/
theorem limitedValue_toDigits {n : Nat} (h : n < 10 ^ digitLimit) :
    limitedValue (Nat.toDigits 10 n) = .ok n := by
  rw [limitedValue_of_le ((Nat.length_toDigits_le_iff (by decide) (by decide)).2 h),
    decimalValue_toDigits]

/-- The digits of a number in base sixteen, with zeros in front, are as many as asked for if these
are enough. -/
theorem length_padded {width n : Nat} (hw : 0 < width) (h : n < 16 ^ width) :
    (List.replicate (width - (Nat.toDigits 16 n).length) '0' ++ Nat.toDigits 16 n).length
      = width := by
  have := (Nat.length_toDigits_le_iff (n := n) (by decide : 1 < 16) hw).2 h
  simp
  omega

end VerilogLoops.Number
