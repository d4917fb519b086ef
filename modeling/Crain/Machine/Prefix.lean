/-
Codecs of variable width.

As in `Codec` a decoder takes a value off the front of its input, but encodings need not be
equally long and not every string stands for a value.  What remains is that the decoder
is the inverse of the encoder on the front of any input.

An optional value is a tag byte, followed by the value if there is one.  An array of known
length is the concatenation of its elements.
-/
import Crain.Machine.Codec

namespace Machine

structure PrefixCodec {α : Type} (enc : α → List Byte)
    (dec : List Byte → Option (α × List Byte)) : Prop where
  dec_iff : ∀ x input rest, dec input = some (x, rest) ↔ input = enc x ++ rest

theorem Codec.prefixCodec {α : Type} {n : Nat} {enc : α → List Byte}
    {dec : List Byte → Option (α × List Byte)} (h : Codec n enc dec) : PrefixCodec enc dec :=
  ⟨h.dec_iff⟩

section Encoding

variable {α : Type}

def encodeOption (enc : α → List Byte) : Option α → List Byte
  | none => [0]
  | some x => 1 :: enc x

/-- Other tags than zero and one are refused. -/
def decodeOption (dec : List Byte → Option (α × List Byte)) :
    List Byte → Option (Option α × List Byte)
  | [] => none
  | tag :: input =>
    if tag = 0 then some (none, input)
    else if tag = 1 then (dec input).map (Prod.map some id)
    else none

def encodeVector {n : Nat} (enc : α → List Byte) (xs : Vector α n) : List Byte :=
  xs.toList.flatMap enc

def decodeVector (dec : List Byte → Option (α × List Byte)) :
    (n : Nat) → List Byte → Option (Vector α n × List Byte)
  | 0, input => some (#v[], input)
  | n + 1, input => do
    let (xs, input) ← decodeVector dec n input
    let (x, input) ← dec input
    return (xs.push x, input)

end Encoding

namespace PrefixCodec

variable {α : Type} {enc : α → List Byte} {dec : List Byte → Option (α × List Byte)}

theorem dec_enc (h : PrefixCodec enc dec) (x : α) (rest : List Byte) :
    dec (enc x ++ rest) = some (x, rest) :=
  (h.dec_iff x _ rest).mpr rfl

theorem option (h : PrefixCodec enc dec) : PrefixCodec (encodeOption enc) (decodeOption dec) where
  dec_iff x input rest := by
    cases input with
    | nil =>
      cases x <;> simp [decodeOption, encodeOption]
    | cons tag input =>
      by_cases hzero : tag = 0
      · subst hzero
        cases x <;> simp [decodeOption, encodeOption, eq_comm]
      · by_cases hone : tag = 1
        · subst hone
          cases x with
          | none => simp [decodeOption, encodeOption]
          | some x =>
            simp [decodeOption, encodeOption, Prod.map, h.dec_iff]
        · have hrefused : decodeOption dec (tag :: input) = none := by
            rw [decodeOption, if_neg hzero, if_neg hone]
          rw [hrefused]
          simp only [reduceCtorEq, false_iff]
          intro heq
          cases x with
          | none => exact hzero (List.cons.inj heq).1
          | some x => exact hone (List.cons.inj heq).1

theorem encodeVector_push {n : Nat} (enc : α → List Byte) (xs : Vector α n) (x : α) :
    encodeVector enc (xs.push x) = encodeVector enc xs ++ enc x := by
  rw [encodeVector, Vector.toList_push, List.flatMap_append, List.flatMap_singleton]
  rfl

/-- Induction on the length: the last element comes after the array without it. -/
theorem vector (h : PrefixCodec enc dec) (n : Nat) :
    PrefixCodec (encodeVector enc) (decodeVector dec n) where
  dec_iff xs input rest := by
    induction n generalizing input rest with
    | zero =>
      have hempty : xs = #v[] := Vector.eq_empty
      subst hempty
      simp [decodeVector, encodeVector]
    | succ n ih =>
      constructor
      · intro hdec
        obtain ⟨⟨front, mid⟩, hfront, hdec⟩ := Option.bind_eq_some_iff.mp hdec
        obtain ⟨⟨x, last⟩, hx, hdec⟩ := Option.bind_eq_some_iff.mp hdec
        obtain ⟨hxs, hrest⟩ := Prod.mk.inj (Option.some.inj hdec)
        rw [← hxs, ← hrest, encodeVector_push, (ih front input mid).mp hfront,
          (h.dec_iff x mid last).mp hx, List.append_assoc]
      · intro hinput
        have hpush := Vector.push_pop_back xs
        rw [← hpush, encodeVector_push, List.append_assoc] at hinput
        show (decodeVector dec n input).bind _ = _
        rw [(ih xs.pop input _).mpr hinput, Option.bind_some]
        show (dec (enc xs.back ++ rest)).bind _ = _
        rw [h.dec_enc, Option.bind_some]
        show some (xs.pop.push xs.back, rest) = _
        rw [hpush]

end PrefixCodec
end Machine
