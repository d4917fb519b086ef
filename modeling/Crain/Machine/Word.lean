/-
Checked arithmetic on fixed-width unsigned words.

A word of width `w` is a `BitVec w` and is read as the integer `toNat`.  The
operations below are the integer operations of a machine that traps: `none` is
the trap, and every result lemma says which integer a word returned without a
trap holds.  A loop that accumulates with `add?` therefore computes an integer
sum, or traps because that sum does not fit (`foldlM_add?_eq_some_iff`).
-/
import Mathlib.Algebra.BigOperators.Group.List.Basic
import Mathlib.Algebra.GroupWithZero.Nat
import Mathlib.Algebra.Order.Group.Nat

namespace Machine
namespace Word

variable {w v : Nat}

/-! ## Operations -/

/-- Addition, trapping when the sum does not fit. -/
def add? (a b : BitVec w) : Option (BitVec w) :=
  if a.uaddOverflow b then none else some (a + b)

def sub? (a b : BitVec w) : Option (BitVec w) :=
  if a < b then none else some (a - b)

def mul? (a b : BitVec w) : Option (BitVec w) :=
  if a.umulOverflow b then none else some (a * b)

def div? (a b : BitVec w) : Option (BitVec w) :=
  if b = 0 then none else some (a / b)

def rem? (a b : BitVec w) : Option (BitVec w) :=
  if b = 0 then none else some (a % b)

/-- The wrapped product together with the overflow flag. -/
def overflowingMul (a b : BitVec w) : BitVec w × Bool :=
  (a * b, a.umulOverflow b)

def saturatingAdd (a b : BitVec w) : BitVec w :=
  if a.uaddOverflow b then BitVec.allOnes w else a + b

def saturatingSub (a b : BitVec w) : BitVec w :=
  if a < b then 0 else a - b

/-- Conversion to another width that stops at the largest word. -/
def saturatedInto (v : Nat) (a : BitVec w) : BitVec v :=
  if a.toNat < 2 ^ v then a.setWidth v else BitVec.allOnes v

def umin (a b : BitVec w) : BitVec w :=
  if a ≤ b then a else b

def umax (a b : BitVec w) : BitVec w :=
  if a ≤ b then b else a

/-! ## The integers they return -/

theorem add?_eq_some_iff {a b c : BitVec w} :
    add? a b = some c ↔ c.toNat = a.toNat + b.toNat := by
  unfold add?
  by_cases h : a.uaddOverflow b
  · have hle : 2 ^ w ≤ a.toNat + b.toNat := by
      simpa [BitVec.uaddOverflow] using h
    have hc := c.isLt
    simp only [h, if_true, reduceCtorEq, false_iff]
    omega
  · rw [if_neg h, Option.some.injEq, ← BitVec.toNat_add_of_not_uaddOverflow h]
    exact ⟨fun e => by rw [e], fun e => BitVec.eq_of_toNat_eq e.symm⟩

theorem mul?_eq_some_iff {a b c : BitVec w} :
    mul? a b = some c ↔ c.toNat = a.toNat * b.toNat := by
  unfold mul?
  by_cases h : a.umulOverflow b
  · have hle : 2 ^ w ≤ a.toNat * b.toNat := by
      simpa [BitVec.umulOverflow] using h
    have hc := c.isLt
    simp only [h, if_true, reduceCtorEq, false_iff]
    omega
  · rw [if_neg h, Option.some.injEq, ← BitVec.toNat_mul_of_not_umulOverflow h]
    exact ⟨fun e => by rw [e], fun e => BitVec.eq_of_toNat_eq e.symm⟩

theorem toNat_sub_of_not_lt {a b : BitVec w} (h : ¬ a < b) :
    (a - b).toNat = a.toNat - b.toNat :=
  BitVec.toNat_sub_of_le (BitVec.le_def.mpr (Nat.le_of_not_lt h))

theorem div?_eq_some_iff {a b c : BitVec w} :
    div? a b = some c ↔ b.toNat ≠ 0 ∧ c.toNat = a.toNat / b.toNat := by
  unfold div?
  have hb : b = 0 ↔ b.toNat = 0 := by rw [← BitVec.toNat_inj]; simp
  by_cases h : b = 0
  · simp [h]
  · rw [if_neg h, Option.some.injEq, ← BitVec.toNat_inj, BitVec.toNat_udiv]
    exact ⟨fun e => ⟨fun h0 => h (hb.mpr h0), e.symm⟩, fun e => e.2.symm⟩

theorem rem?_eq_some_iff {a b c : BitVec w} :
    rem? a b = some c ↔ b.toNat ≠ 0 ∧ c.toNat = a.toNat % b.toNat := by
  unfold rem?
  have hb : b = 0 ↔ b.toNat = 0 := by rw [← BitVec.toNat_inj]; simp
  by_cases h : b = 0
  · simp [h]
  · rw [if_neg h, Option.some.injEq, ← BitVec.toNat_inj, BitVec.toNat_umod]
    exact ⟨fun e => ⟨fun h0 => h (hb.mpr h0), e.symm⟩, fun e => e.2.symm⟩

theorem overflowingMul_snd {a b : BitVec w} :
    (overflowingMul a b).2 = false ↔ a.toNat * b.toNat < 2 ^ w := by
  simp [overflowingMul, BitVec.umulOverflow]

theorem toNat_saturatingAdd_of_lt {a b : BitVec w} (h : a.toNat + b.toNat < 2 ^ w) :
    (saturatingAdd a b).toNat = a.toNat + b.toNat := by
  have hfit : ¬ a.uaddOverflow b := by
    simp [BitVec.uaddOverflow, h]
  rw [saturatingAdd, if_neg hfit, BitVec.toNat_add, Nat.mod_eq_of_lt h]

theorem toNat_saturatingAdd (a b : BitVec w) :
    (saturatingAdd a b).toNat = min (a.toNat + b.toNat) (2 ^ w - 1) := by
  by_cases h : a.toNat + b.toNat < 2 ^ w
  · rw [toNat_saturatingAdd_of_lt h]
    omega
  · have hoverflow : a.uaddOverflow b := by simpa [BitVec.uaddOverflow] using h
    rw [saturatingAdd, if_pos hoverflow, BitVec.toNat_allOnes]
    omega

@[simp] theorem toNat_saturatingSub (a b : BitVec w) :
    (saturatingSub a b).toNat = a.toNat - b.toNat := by
  unfold saturatingSub
  by_cases h : a < b
  · have hlt : a.toNat < b.toNat := h
    rw [if_pos h, Nat.sub_eq_zero_of_le (Nat.le_of_lt hlt)]
    exact BitVec.toNat_zero
  · rw [if_neg h, toNat_sub_of_not_lt h]

theorem toNat_saturatedInto_of_le {a : BitVec w} (h : w ≤ v) :
    (saturatedInto v a).toNat = a.toNat := by
  have hlt : a.toNat < 2 ^ v := Nat.lt_of_lt_of_le a.isLt (Nat.pow_le_pow_right (by omega) h)
  rw [saturatedInto, if_pos hlt, BitVec.toNat_setWidth, Nat.mod_eq_of_lt hlt]

theorem toNat_setWidth_of_le {a : BitVec w} (h : w ≤ v) : (a.setWidth v).toNat = a.toNat := by
  rw [BitVec.toNat_setWidth, Nat.mod_eq_of_lt]
  exact Nat.lt_of_lt_of_le a.isLt (Nat.pow_le_pow_right (by omega) h)

@[simp] theorem toNat_umin (a b : BitVec w) : (umin a b).toNat = min a.toNat b.toNat := by
  unfold umin
  by_cases h : a ≤ b
  · rw [if_pos h, Nat.min_eq_left (BitVec.le_def.mp h)]
  · rw [if_neg h, Nat.min_eq_right (Nat.le_of_not_le h)]

@[simp] theorem toNat_umax (a b : BitVec w) : (umax a b).toNat = max a.toNat b.toNat := by
  unfold umax
  by_cases h : a ≤ b
  · rw [if_pos h, Nat.max_eq_right (BitVec.le_def.mp h)]
  · rw [if_neg h, Nat.max_eq_left (Nat.le_of_not_le h)]

/-! ## Results that fit

The same facts in the direction a symbolic run uses them: an integer bound on
the operands yields the word. -/

theorem exists_add? {a b : BitVec w} (h : a.toNat + b.toNat < 2 ^ w) :
    ∃ c, add? a b = some c ∧ c.toNat = a.toNat + b.toNat := by
  refine ⟨BitVec.ofNat w (a.toNat + b.toNat), ?_, ?_⟩
  · rw [add?_eq_some_iff, BitVec.toNat_ofNat, Nat.mod_eq_of_lt h]
  · rw [BitVec.toNat_ofNat, Nat.mod_eq_of_lt h]

theorem exists_mul? {a b : BitVec w} (h : a.toNat * b.toNat < 2 ^ w) :
    ∃ c, mul? a b = some c ∧ c.toNat = a.toNat * b.toNat := by
  refine ⟨BitVec.ofNat w (a.toNat * b.toNat), ?_, ?_⟩
  · rw [mul?_eq_some_iff, BitVec.toNat_ofNat, Nat.mod_eq_of_lt h]
  · rw [BitVec.toNat_ofNat, Nat.mod_eq_of_lt h]

theorem exists_sub? {a b : BitVec w} (h : b.toNat ≤ a.toNat) :
    ∃ c, sub? a b = some c ∧ c.toNat = a.toNat - b.toNat := by
  have hn : ¬ a < b := fun hlt => Nat.not_lt_of_le h hlt
  refine ⟨a - b, ?_, toNat_sub_of_not_lt hn⟩
  rw [sub?, if_neg hn]

theorem exists_div? {a b : BitVec w} (h : b.toNat ≠ 0) :
    ∃ c, div? a b = some c ∧ c.toNat = a.toNat / b.toNat :=
  ⟨a / b, div?_eq_some_iff.mpr ⟨h, BitVec.toNat_udiv⟩, BitVec.toNat_udiv⟩

theorem exists_rem? {a b : BitVec w} (h : b.toNat ≠ 0) :
    ∃ c, rem? a b = some c ∧ c.toNat = a.toNat % b.toNat :=
  ⟨a % b, rem?_eq_some_iff.mpr ⟨h, BitVec.toNat_umod⟩, BitVec.toNat_umod⟩

theorem mul?_eq_none_iff {a b : BitVec w} : mul? a b = none ↔ 2 ^ w ≤ a.toNat * b.toNat := by
  rw [Option.eq_none_iff_forall_ne_some]
  constructor
  · intro h
    by_contra hlt
    obtain ⟨c, hc, _⟩ := exists_mul? (Nat.lt_of_not_le hlt)
    exact h c hc
  · intro h c hc
    have hval := mul?_eq_some_iff.mp hc
    have hlt := c.isLt
    omega

/-- A product divided by a nonzero word traps exactly when the product does not
fit, and is otherwise the integer quotient. -/
theorem mul?_div?_bind {β : Type} {a b d : BitVec w} (hd : d.toNat ≠ 0)
    (f : BitVec w → Option β) :
    ((mul? a b).bind fun p => (div? p d).bind f) =
      if a.toNat * b.toNat < 2 ^ w then f (BitVec.ofNat w (a.toNat * b.toNat / d.toNat))
      else none := by
  by_cases hfit : a.toNat * b.toNat < 2 ^ w
  · obtain ⟨p, hp, hpv⟩ := exists_mul? hfit
    obtain ⟨q, hq, hqv⟩ := exists_div? (a := p) hd
    have hquot : BitVec.ofNat w (a.toNat * b.toNat / d.toNat) = q := by
      rw [← hpv, ← hqv, BitVec.ofNat_toNat, BitVec.setWidth_eq]
    rw [if_pos hfit, hp, Option.bind_some, hq, Option.bind_some, hquot]
  · rw [if_neg hfit, mul?_eq_none_iff.mpr (Nat.le_of_not_lt hfit), Option.bind_none]

/-! ## Accumulating loops -/

/-- A loop that adds up a list of words returns the integer sum, and returns at
all exactly when a word can hold that sum. -/
theorem foldlM_add?_eq_some_iff {α : Type} (f : α → BitVec w) :
    ∀ (l : List α) (a c : BitVec w),
      l.foldlM (fun acc i => add? acc (f i)) a = some c ↔
        c.toNat = a.toNat + (l.map fun i => (f i).toNat).sum
  | [], a, c => by
    simp only [List.foldlM_nil, List.map_nil, List.sum_nil, Nat.add_zero]
    show some a = some c ↔ _
    rw [Option.some.injEq, ← BitVec.toNat_inj]
    exact eq_comm
  | i :: rest, a, c => by
    rw [List.foldlM_cons, List.map_cons, List.sum_cons, ← Nat.add_assoc]
    cases hab : add? a (f i) with
    | some b =>
      show rest.foldlM (fun acc i => add? acc (f i)) b = some c ↔ _
      rw [foldlM_add?_eq_some_iff f rest b c, add?_eq_some_iff.mp hab]
    | none =>
      -- The first addition already traps, so no word holds the longer sum.
      have hle : ¬ a.toNat + (f i).toNat < 2 ^ w := by
        intro hlt
        obtain ⟨b, hb, _⟩ := exists_add? hlt
        rw [hab] at hb
        cases hb
      have hc := c.isLt
      show none = some c ↔ _
      simp only [reduceCtorEq, false_iff]
      omega

theorem foldlM_add?_zero_eq_some_iff {α : Type} (f : α → BitVec w) (l : List α) (c : BitVec w) :
    l.foldlM (fun acc i => add? acc (f i)) 0 = some c ↔
      c.toNat = (l.map fun i => (f i).toNat).sum := by
  rw [foldlM_add?_eq_some_iff, show (0 : BitVec w).toNat = 0 from BitVec.toNat_zero, Nat.zero_add]

theorem exists_foldlM_add?_zero {α : Type} (f : α → BitVec w) {l : List α}
    (h : (l.map fun i => (f i).toNat).sum < 2 ^ w) :
    ∃ c, l.foldlM (fun acc i => add? acc (f i)) 0 = some c ∧
      c.toNat = (l.map fun i => (f i).toNat).sum := by
  refine ⟨BitVec.ofNat w (l.map fun i => (f i).toNat).sum, ?_, ?_⟩
  · rw [foldlM_add?_zero_eq_some_iff, BitVec.toNat_ofNat, Nat.mod_eq_of_lt h]
  · rw [BitVec.toNat_ofNat, Nat.mod_eq_of_lt h]

end Word
end Machine
