/-
Fixed-width codecs.

A decoder takes a value off the front of its input and returns what is left
over.  `Codec width enc dec` says that `dec` is the inverse of `enc` on the front
of any input, and that every string of the right width stands for a value.  Such
a decoder succeeds exactly on inputs that are long enough, and never looks at
what follows (`dec_eq`).  Codecs are put together field by field with `pair` and
renamed with `map`.
-/
import Mathlib.Logic.Equiv.Defs
import Crain.Machine.Bytes

namespace Machine

structure Codec {α : Type} (width : Nat) (enc : α → List Byte)
    (dec : List Byte → Option (α × List Byte)) : Prop where
  length_enc : ∀ x, (enc x).length = width
  dec_iff : ∀ x input rest, dec input = some (x, rest) ↔ input = enc x ++ rest
  enc_surjective : ∀ bytes, bytes.length = width → ∃ x, enc x = bytes

namespace Codec

variable {α β : Type} {m n : Nat} {enc : α → List Byte} {dec : List Byte → Option (α × List Byte)}
  {enc' : β → List Byte} {dec' : List Byte → Option (β × List Byte)}

/-! ## What a decoder does -/

theorem enc_injective (h : Codec n enc dec) {x y : α} (hxy : enc x = enc y) : x = y := by
  have hx := (h.dec_iff x (enc x ++ []) []).mpr rfl
  have hy := (h.dec_iff y (enc x ++ []) []).mpr (by rw [hxy])
  rw [hx] at hy
  cases hy
  rfl

/-- Input that is long enough decodes to the value its front stands for. -/
theorem exists_dec (h : Codec n enc dec) {input : List Byte} (hlen : n ≤ input.length) :
    ∃ x, dec input = some (x, input.drop n) ∧ enc x = input.take n := by
  obtain ⟨x, hx⟩ := h.enc_surjective (input.take n) (List.length_take_of_le hlen)
  refine ⟨x, (h.dec_iff x input _).mpr ?_, hx⟩
  rw [hx, List.take_append_drop]

theorem take_of_dec (h : Codec n enc dec) {input rest : List Byte} {x : α}
    (hdec : dec input = some (x, rest)) : input.take n = enc x := by
  rw [(h.dec_iff x input rest).mp hdec]
  exact List.take_left' (h.length_enc x)

theorem le_length_of_dec (h : Codec n enc dec) {input rest : List Byte} {x : α}
    (hdec : dec input = some (x, rest)) : n ≤ input.length := by
  rw [(h.dec_iff x input rest).mp hdec, List.length_append, h.length_enc]
  omega

theorem dec_fst_iff (h : Codec n enc dec) {input : List Byte} {x : α} :
    (dec input).map Prod.fst = some x ↔ n ≤ input.length ∧ input.take n = enc x := by
  constructor
  · intro hx
    rw [Option.map_eq_some_iff] at hx
    obtain ⟨⟨y, rest⟩, hdec, hy⟩ := hx
    subst hy
    exact ⟨h.le_length_of_dec hdec, h.take_of_dec hdec⟩
  · intro hx
    obtain ⟨y, hdec, hy⟩ := h.exists_dec hx.1
    rw [hdec, h.enc_injective (hy.trans hx.2)]
    rfl

/-! ## Putting codecs together -/

theorem pair (ha : Codec m enc dec) (hb : Codec n enc' dec') :
    Codec (m + n) (fun p : α × β => enc p.1 ++ enc' p.2) (fun input => do
      let (x, input) ← dec input
      let (y, input) ← dec' input
      return ((x, y), input)) where
  length_enc p := by rw [List.length_append, ha.length_enc, hb.length_enc]
  dec_iff p input rest := by
    constructor
    · intro h
      obtain ⟨⟨x, mid⟩, hx, h⟩ := Option.bind_eq_some_iff.mp h
      obtain ⟨⟨y, last⟩, hy, h⟩ := Option.bind_eq_some_iff.mp h
      cases h
      rw [(ha.dec_iff x input mid).mp hx, (hb.dec_iff y mid rest).mp hy, List.append_assoc]
    · intro h
      have hx : dec input = some (p.1, enc' p.2 ++ rest) :=
        (ha.dec_iff _ _ _).mpr (by rw [h, List.append_assoc])
      have hy : dec' (enc' p.2 ++ rest) = some (p.2, rest) := (hb.dec_iff _ _ _).mpr rfl
      show (dec input).bind _ = _
      rw [hx, Option.bind_some]
      show (dec' (enc' p.2 ++ rest)).bind _ = _
      rw [hy]
      rfl
  enc_surjective bytes h := by
    obtain ⟨x, hx⟩ := ha.enc_surjective (bytes.take m) (List.length_take_of_le (by omega))
    obtain ⟨y, hy⟩ := hb.enc_surjective (bytes.drop m) (by rw [List.length_drop]; omega)
    exact ⟨(x, y), by rw [hx, hy, List.take_append_drop]⟩

theorem map (e : α ≃ β) (h : Codec n enc dec) :
    Codec n (fun y => enc (e.symm y)) (fun input => (dec input).map (Prod.map e id)) where
  length_enc y := h.length_enc _
  dec_iff y input rest := by
    rw [← h.dec_iff (e.symm y) input rest, Option.map_eq_some_iff]
    constructor
    · intro hy
      obtain ⟨⟨x, r⟩, hdec, hxr⟩ := hy
      cases hxr
      rw [e.symm_apply_apply]
      exact hdec
    · intro hdec
      exact ⟨_, hdec, by rw [Prod.map_apply, e.apply_symm_apply]; rfl⟩
  enc_surjective bytes hlen := by
    obtain ⟨x, hx⟩ := h.enc_surjective bytes hlen
    exact ⟨e x, by rw [e.symm_apply_apply]; exact hx⟩

end Codec

/-! ## Words and byte blocks -/

def encodeWord (n : Nat) {w : Nat} (x : BitVec w) : List Byte := Bytes.leBytes n x.toNat

def decodeWord (n w : Nat) (input : List Byte) : Option (BitVec w × List Byte) :=
  if n ≤ input.length then
    some (BitVec.ofNat w (Bytes.leValue (input.take n)), input.drop n)
  else none

def decodeBytes (n : Nat) (input : List Byte) : Option (FixedBytes n × List Byte) :=
  if h : n ≤ input.length then
    some (⟨input.take n, List.length_take_of_le h⟩, input.drop n)
  else none

theorem codec_word {n w : Nat} (hw : 2 ^ w = 256 ^ n) :
    Codec n (encodeWord n (w := w)) (decodeWord n w) where
  length_enc x := Bytes.length_leBytes n x.toNat
  dec_iff x input rest := by
    constructor
    · intro h
      unfold decodeWord at h
      split at h
      · rename_i hlen
        cases h
        have hval := Bytes.leValue_lt (input.take n)
        rw [List.length_take_of_le hlen, ← hw] at hval
        have hback := Bytes.leBytes_leValue (input.take n)
        rw [List.length_take_of_le hlen] at hback
        rw [encodeWord, BitVec.toNat_ofNat, Nat.mod_eq_of_lt hval, hback, List.take_append_drop]
      · cases h
    · intro h
      have hlen : (encodeWord n x).length = n := Bytes.length_leBytes n x.toNat
      have hval : Bytes.leValue (encodeWord n x) = x.toNat :=
        Bytes.leValue_leBytes (by rw [← hw]; exact x.isLt)
      rw [h, decodeWord, if_pos (by rw [List.length_append]; omega), List.take_left' hlen,
        List.drop_left' hlen, hval, BitVec.ofNat_toNat, BitVec.setWidth_eq]
  enc_surjective bytes h := by
    refine ⟨BitVec.ofNat w (Bytes.leValue bytes), ?_⟩
    have hval := Bytes.leValue_lt bytes
    rw [h, ← hw] at hval
    rw [encodeWord, BitVec.toNat_ofNat, Nat.mod_eq_of_lt hval, ← h]
    exact Bytes.leBytes_leValue bytes

theorem codec_bytes (n : Nat) : Codec n (fun x : FixedBytes n => x.bytes) (decodeBytes n) where
  length_enc x := x.length_bytes
  dec_iff x input rest := by
    constructor
    · intro h
      unfold decodeBytes at h
      split at h
      · cases h
        exact (List.take_append_drop n input).symm
      · cases h
    · intro h
      have hlen : n ≤ input.length := by
        rw [h, List.length_append, x.length_bytes]
        omega
      have htake : input.take n = x.bytes := by
        rw [h]
        exact List.take_left' x.length_bytes
      have hdrop : input.drop n = rest := by
        rw [h]
        exact List.drop_left' x.length_bytes
      rw [decodeBytes, dif_pos hlen, hdrop]
      congr 2
      exact FixedBytes.ext_bytes htake
  enc_surjective bytes h := ⟨⟨bytes, h⟩, rfl⟩

end Machine
