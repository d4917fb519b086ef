/-
Byte strings as integers.

A byte string is a list of 8-bit words.  `leValue` reads it with the least
significant byte first, `beValue` with the most significant byte first, and
`leBytes` and `beBytes` write the low bytes of an integer.  Writing and reading back
are inverse on integers that fit and on strings of the written length.

Strings of one length are ordered byte by byte as the integers they stand for, most
significant byte first (`lt_iff_beValue_lt`), so the strings up to a given one can be
counted (`card_beValue_le`).
-/
import Mathlib.Data.Nat.Digits.Defs
import Mathlib.SetTheory.Cardinal.Finite

namespace Machine

abbrev Byte := BitVec 8

structure FixedBytes (n : Nat) where
  bytes : List Byte
  length_bytes : bytes.length = n
  deriving DecidableEq

theorem FixedBytes.ext_bytes {n : Nat} {x y : FixedBytes n} (h : x.bytes = y.bytes) : x = y := by
  cases x
  cases y
  simp only at h
  subst h
  rfl

namespace Bytes

def leValue (bytes : List Byte) : Nat := Nat.ofDigits 256 (bytes.map BitVec.toNat)

def beValue (bytes : List Byte) : Nat := leValue bytes.reverse

/-- The `n` low bytes of `v`, least significant first. -/
def leBytes : Nat → Nat → List Byte
  | 0, _ => []
  | n + 1, v => BitVec.ofNat 8 v :: leBytes n (v / 256)

@[simp] theorem leValue_nil : leValue [] = 0 := rfl

theorem leValue_cons (b : Byte) (rest : List Byte) :
    leValue (b :: rest) = b.toNat + 256 * leValue rest := by
  rw [leValue, List.map_cons, Nat.ofDigits_cons]
  rfl

theorem leValue_lt (bytes : List Byte) : leValue bytes < 256 ^ bytes.length := by
  have h := Nat.ofDigits_lt_base_pow_length (b := 256) (l := bytes.map BitVec.toNat) (by omega)
    (fun x hx => by
      obtain ⟨b, _, hb⟩ := List.mem_map.mp hx
      rw [← hb]
      exact b.isLt)
  rw [List.length_map] at h
  exact h

theorem beValue_lt (bytes : List Byte) : beValue bytes < 256 ^ bytes.length := by
  have h := leValue_lt bytes.reverse
  rw [List.length_reverse] at h
  exact h

@[simp] theorem length_leBytes (n v : Nat) : (leBytes n v).length = n := by
  induction n generalizing v with
  | zero => rfl
  | succ n ih => rw [leBytes, List.length_cons, ih]

theorem leValue_leBytes {n v : Nat} (h : v < 256 ^ n) : leValue (leBytes n v) = v := by
  induction n generalizing v with
  | zero =>
    rw [Nat.pow_zero] at h
    rw [leBytes, leValue_nil]
    omega
  | succ n ih =>
    have hrest : v / 256 < 256 ^ n := by
      rw [Nat.pow_succ] at h
      exact Nat.div_lt_of_lt_mul (by omega)
    rw [leBytes, leValue_cons, ih hrest, BitVec.toNat_ofNat]
    omega

theorem leBytes_leValue (bytes : List Byte) : leBytes bytes.length (leValue bytes) = bytes := by
  induction bytes with
  | nil => rfl
  | cons b rest ih =>
    have hb := b.isLt
    have hrest : (b.toNat + 256 * leValue rest) / 256 = leValue rest := by omega
    rw [List.length_cons, leBytes, leValue_cons, hrest, ih]
    congr 1
    apply BitVec.eq_of_toNat_eq
    rw [BitVec.toNat_ofNat]
    omega

/-! ## Most significant byte first -/

/-- The `n` low bytes of `v`, most significant first. -/
def beBytes (n v : Nat) : List Byte := (leBytes n v).reverse

@[simp] theorem length_beBytes (n v : Nat) : (beBytes n v).length = n := by
  simp [beBytes]

theorem beValue_beBytes {n v : Nat} (h : v < 256 ^ n) : beValue (beBytes n v) = v := by
  rw [beValue, beBytes, List.reverse_reverse, leValue_leBytes h]

theorem beBytes_beValue (bytes : List Byte) : beBytes bytes.length (beValue bytes) = bytes := by
  have h := leBytes_leValue bytes.reverse
  rw [List.length_reverse] at h
  rw [beBytes, beValue, h, List.reverse_reverse]

/-- A block of bytes is determined by the integer it stands for. -/
theorem eq_of_beValue_eq {n : Nat} {x y : FixedBytes n} (h : beValue x.bytes = beValue y.bytes) :
    x = y := by
  apply FixedBytes.ext_bytes
  rw [← beBytes_beValue x.bytes, ← beBytes_beValue y.bytes, h, x.length_bytes, y.length_bytes]

theorem beValue_cons (b : Byte) (rest : List Byte) :
    beValue (b :: rest) = b.toNat * 256 ^ rest.length + beValue rest := by
  rw [beValue, leValue, List.reverse_cons, List.map_append, Nat.ofDigits_append, List.length_map,
    List.length_reverse, List.map_singleton, Nat.ofDigits_singleton, beValue, leValue,
    Nat.mul_comm, Nat.add_comm]

/-- Induction on the strings: a first byte that differs outweighs everything behind
it. -/
theorem lt_iff_beValue_lt {a b : List Byte} (hlen : a.length = b.length) :
    a < b ↔ beValue a < beValue b := by
  induction a generalizing b with
  | nil =>
    rw [List.eq_nil_of_length_eq_zero hlen.symm]
    simp
  | cons x a ih =>
    cases b with
    | nil => cases hlen
    | cons y b =>
      have htail : a.length = b.length := Nat.succ.inj hlen
      have ha := beValue_lt a
      have hb := beValue_lt b
      rw [List.cons_lt_cons_iff, ih htail, beValue_cons, beValue_cons, htail]
      rw [htail] at ha
      generalize 256 ^ b.length = weight at ha hb ⊢
      rcases Nat.lt_trichotomy x.toNat y.toNat with hlt | heq | hgt
      · have hstep : (x.toNat + 1) * weight ≤ y.toNat * weight := Nat.mul_le_mul_right _ hlt
        rw [Nat.add_mul, Nat.one_mul] at hstep
        have hxy : x < y := hlt
        simp only [hxy, true_or, true_iff]
        omega
      · rw [BitVec.eq_of_toNat_eq heq]
        simp
      · have hstep : (y.toNat + 1) * weight ≤ x.toNat * weight := Nat.mul_le_mul_right _ hgt
        rw [Nat.add_mul, Nat.one_mul] at hstep
        have hxy : ¬ x < y := fun h => Nat.lt_asymm hgt h
        have hne : x ≠ y := fun h => Nat.ne_of_gt hgt (congrArg BitVec.toNat h)
        simp only [hxy, hne, false_and, or_false, false_iff]
        omega

theorem le_iff_beValue_le {a b : List Byte} (hlen : a.length = b.length) :
    a ≤ b ↔ beValue a ≤ beValue b := by
  rw [← List.not_lt, lt_iff_beValue_lt hlen.symm, Nat.not_lt]

/-! ## Counting -/

/-- A string of a given length stands for an integer and the other way round. -/
def equivLE {n m : Nat} (hm : m < 256 ^ n) :
    {x : FixedBytes n // beValue x.bytes ≤ m} ≃ Fin (m + 1) where
  toFun x := ⟨beValue x.1.bytes, Nat.lt_succ_of_le x.2⟩
  invFun i := ⟨⟨beBytes n i, length_beBytes n i⟩, by
    rw [beValue_beBytes (Nat.lt_of_le_of_lt (Nat.le_of_lt_succ i.isLt) hm)]
    exact Nat.le_of_lt_succ i.isLt⟩
  left_inv x := by
    have hlt : beValue x.1.bytes < 256 ^ n := Nat.lt_of_le_of_lt x.2 hm
    apply Subtype.ext
    apply eq_of_beValue_eq
    exact beValue_beBytes hlt
  right_inv i := by
    apply Fin.ext
    exact beValue_beBytes (Nat.lt_of_le_of_lt (Nat.le_of_lt_succ i.isLt) hm)

theorem card_beValue_le {n m : Nat} (hm : m < 256 ^ n) :
    Nat.card {x : FixedBytes n // beValue x.bytes ≤ m} = m + 1 := by
  rw [Nat.card_congr (equivLE hm), Nat.card_eq_fintype_card, Fintype.card_fin]

theorem card_fixedBytes (n : Nat) : Nat.card (FixedBytes n) = 256 ^ n := by
  have hpos : 0 < 256 ^ n := Nat.pow_pos (by omega)
  have hall : ∀ x : FixedBytes n, beValue x.bytes ≤ 256 ^ n - 1 := by
    intro x
    have hlt := beValue_lt x.bytes
    rw [x.length_bytes] at hlt
    omega
  rw [← Nat.card_congr (Equiv.subtypeUnivEquiv hall), card_beValue_le (by omega)]
  omega

end Bytes
end Machine
