/-
The storage items as bytes.

The state of a chain keeps each item of the pallet under a key as the bytes of its encoding.
An item that is absent, or that does not decode, reads as its default: an empty window, or a
difficulty of zero.  The genesis state sets the two difficulties and leaves the window absent.
The hook decodes what it reads and encodes what it writes.  On these bytes a run does what it
does on the values (`stored_run`), and the window takes 60 bytes and another 40 for each
block it knows.
-/
import Crain.Difficulty.Traps
import Crain.Machine.Prefix

namespace Crain
namespace Difficulty

open Machine

/-! ## The items -/

def DifficultyAndTimestamp.encode (d : DifficultyAndTimestamp) : List Byte :=
  encodeWord 32 d.difficulty ++ encodeWord 8 d.timestamp

def DifficultyAndTimestamp.decode (input : List Byte) :
    Option (DifficultyAndTimestamp × List Byte) := do
  let (difficulty, input) ← decodeWord 32 256 input
  let (timestamp, input) ← decodeWord 8 64 input
  return ({ difficulty, timestamp }, input)

def encodeWindow (data : Vector Slot 60) : List Byte :=
  encodeVector (encodeOption DifficultyAndTimestamp.encode) data

def decodeWindow (input : List Byte) : Option (Vector Slot 60 × List Byte) :=
  decodeVector (decodeOption DifficultyAndTimestamp.decode) 60 input

def DifficultyAndTimestamp.fields : Difficulty × Moment ≃ DifficultyAndTimestamp where
  toFun p := ⟨p.1, p.2⟩
  invFun d := (d.difficulty, d.timestamp)
  left_inv _ := rfl
  right_inv _ := rfl

theorem codec_difficulty : Codec 32 (encodeWord 32 (w := 256)) (decodeWord 32 256) :=
  codec_word (by norm_num)

theorem codec_moment : Codec 8 (encodeWord 8 (w := 64)) (decodeWord 8 64) :=
  codec_word (by norm_num)

theorem DifficultyAndTimestamp.codec :
    Codec 40 DifficultyAndTimestamp.encode DifficultyAndTimestamp.decode := by
  have h := (codec_difficulty.pair codec_moment).map DifficultyAndTimestamp.fields
  have hdecode : DifficultyAndTimestamp.decode = fun input => (do
      let (difficulty, input) ← decodeWord 32 256 input
      let (timestamp, input) ← decodeWord 8 64 input
      return ((difficulty, timestamp), input)).map
        (Prod.map DifficultyAndTimestamp.fields id) := by
    funext input
    unfold DifficultyAndTimestamp.decode
    cases decodeWord 32 256 input with
    | none => rfl
    | some d =>
      simp only [Option.bind_eq_bind, Option.bind_some]
      cases decodeWord 8 64 d.2 <;> rfl
  rw [hdecode]
  exact h

theorem codec_window : PrefixCodec encodeWindow decodeWindow :=
  (DifficultyAndTimestamp.codec.prefixCodec.option).vector 60

/-! ## The hook on bytes -/

structure RawStorage where
  pastDifficultiesAndTimestamps : Option (List Byte)
  currentDifficulty : Option (List Byte)
  initialDifficulty : Option (List Byte)

/-- Read an item. -/
def get {α : Type} (dec : List Byte → Option (α × List Byte)) (default : α)
    (item : Option (List Byte)) : α :=
  match item.bind dec with
  | some (x, _) => x
  | none => default

def RawStorage.load (raw : RawStorage) : Storage where
  pastDifficultiesAndTimestamps :=
    get decodeWindow (Vector.replicate 60 none) raw.pastDifficultiesAndTimestamps
  currentDifficulty := get (decodeWord 32 256) 0 raw.currentDifficulty
  initialDifficulty := get (decodeWord 32 256) 0 raw.initialDifficulty

def rawGenesis (initialDifficulty : Difficulty) : RawStorage where
  pastDifficultiesAndTimestamps := none
  currentDifficulty := some (encodeWord 32 initialDifficulty)
  initialDifficulty := some (encodeWord 32 initialDifficulty)

def rawOnTimestampSet (targetBlockTime : Moment) (raw : RawStorage) (now : Moment) :
    Option RawStorage := do
  let s ← onTimestampSet targetBlockTime raw.load now
  return { raw with
    pastDifficultiesAndTimestamps := some (encodeWindow s.pastDifficultiesAndTimestamps)
    currentDifficulty := some (encodeWord 32 s.currentDifficulty) }

/-- What a call writes and what it leaves alone, whatever the arithmetic gives. -/
theorem onTimestampSet_writes {T : Moment} {s s' : Storage} {now : Moment}
    (h : onTimestampSet T s now = some s') :
    s'.pastDifficultiesAndTimestamps = nextWindow s now ∧
      s'.initialDifficulty = s.initialDifficulty := by
  unfold onTimestampSet at h
  simp only [Option.bind_eq_bind, Option.bind_eq_some_iff, Option.pure_def, Option.some.injEq] at h
  obtain ⟨_, _, _, _, _, _, _, _, _, _, _, _, _, _, h⟩ := h
  subst h
  unfold nextWindow
  exact ⟨rfl, rfl⟩

section Load

variable {T : Moment} {raw : RawStorage} {now : Moment}

theorem get_encode {α : Type} {enc : α → List Byte} {dec : List Byte → Option (α × List Byte)}
    (h : PrefixCodec enc dec) (default x : α) : get dec default (some (enc x)) = x := by
  have hdec := h.dec_enc x []
  rw [List.append_nil] at hdec
  simp only [get, Option.bind_some, hdec]

theorem load_rawGenesis (G : Difficulty) : (rawGenesis G).load = genesis G := by
  have hread := get_encode codec_difficulty.prefixCodec 0 G
  simp only [RawStorage.load, rawGenesis, genesis, hread]
  rfl

/-- A call on the bytes is a call on the values. -/
theorem load_rawOnTimestampSet :
    (rawOnTimestampSet T raw now).map RawStorage.load = onTimestampSet T raw.load now := by
  unfold rawOnTimestampSet
  cases h : onTimestampSet T raw.load now with
  | none => rfl
  | some s =>
    have hwindow := get_encode codec_window (Vector.replicate 60 none)
      s.pastDifficultiesAndTimestamps
    have hcurrent := get_encode codec_difficulty.prefixCodec 0 s.currentDifficulty
    have hinitial := (onTimestampSet_writes h).2
    simp only [Option.bind_eq_bind, Option.bind_some, Option.pure_def, Option.map_some,
      RawStorage.load, hwindow, hcurrent]
    rw [← show s.initialDifficulty = get (decodeWord 32 256) 0 raw.initialDifficulty from hinitial]

theorem load_run (raw : RawStorage) (timestamps : List Moment) :
    (run (rawOnTimestampSet T) raw timestamps).map RawStorage.load =
      runFrom T raw.load timestamps := by
  induction timestamps generalizing raw with
  | nil => rfl
  | cons now rest ih =>
    have hstep : (rawOnTimestampSet T raw now).map RawStorage.load =
        onTimestampSet T raw.load now := load_rawOnTimestampSet
    rw [runFrom, run_cons, run_cons]
    cases h : rawOnTimestampSet T raw now with
    | none =>
      rw [h] at hstep
      rw [← hstep]
      rfl
    | some next =>
      rw [h, Option.map_some] at hstep
      rw [← hstep, Option.bind_some, Option.bind_some]
      exact ih next

theorem rawOnTimestampSet_window {raw' : RawStorage} (h : rawOnTimestampSet T raw now = some raw') :
    raw'.pastDifficultiesAndTimestamps =
      some (encodeWindow raw'.load.pastDifficultiesAndTimestamps) := by
  unfold rawOnTimestampSet at h
  simp only [Option.bind_eq_bind, Option.bind_eq_some_iff, Option.pure_def, Option.some.injEq] at h
  obtain ⟨s, _, hraw⟩ := h
  rw [← hraw]
  simp only [RawStorage.load, get_encode codec_window]

end Load

/-! ## The size of the window -/

/-- The window after some blocks: the empty slots it started with and a record for each
block, of which the last 60 show. -/
theorem run_window {T : Moment} {G : Difficulty} {timestamps : List Moment} {s : Storage}
    (h : runGenesis T G timestamps = some s) :
    ∃ records : List DifficultyAndTimestamp, records.length = timestamps.length ∧
      s.pastDifficultiesAndTimestamps.toList =
        (List.replicate 60 none ++ records.map some).drop (records.map some).length := by
  refine run_history (P := fun past s => ∃ records : List DifficultyAndTimestamp,
    records.length = past.length ∧ s.pastDifficultiesAndTimestamps.toList =
      (List.replicate 60 none ++ records.map some).drop (records.map some).length) ?_ ?_ h
  · intro past s now s' hpast hs'
    obtain ⟨records, hlen, hwindow⟩ := hpast
    refine ⟨records ++ [⟨s.currentDifficulty, now⟩], ?_, ?_⟩
    · rw [List.length_append, List.length_append, hlen]
      rfl
    · rw [(onTimestampSet_writes hs').1, nextWindow, List.map_append]
      exact Register.toList_push_of_drop List.length_replicate hwindow _
  · exact ⟨[], rfl, by simp [genesis]⟩

theorem length_flatMap_const {α : Type} {f : α → List Byte} {n : Nat} {l : List α}
    (h : ∀ x ∈ l, (f x).length = n) : (l.flatMap f).length = n * l.length := by
  induction l with
  | nil => rfl
  | cons x l ih =>
    rw [List.flatMap_cons, List.length_append, h x List.mem_cons_self,
      ih fun y hy => h y (List.mem_cons_of_mem x hy), List.length_cons, Nat.mul_succ, Nat.add_comm]

/-- An empty slot takes one byte and a record 41. -/
theorem length_encodeWindow {data : Vector Slot 60} {records : List DifficultyAndTimestamp}
    (h : data.toList =
      (List.replicate 60 none ++ records.map some).drop (records.map some).length) :
    (encodeWindow data).length = 60 + 40 * min records.length 60 := by
  have hempty : ((List.replicate (60 - records.length) none).flatMap
      (encodeOption DifficultyAndTimestamp.encode)).length = 1 * (60 - records.length) := by
    rw [length_flatMap_const (n := 1), List.length_replicate]
    intro slot hslot
    rw [List.eq_of_mem_replicate hslot]
    rfl
  have hfilled : (((records.drop (records.length - 60)).map some).flatMap
      (encodeOption DifficultyAndTimestamp.encode)).length =
        41 * (records.length - (records.length - 60)) := by
    rw [length_flatMap_const (n := 41), List.length_map, List.length_drop]
    intro slot hslot
    obtain ⟨r, _, hr⟩ := List.mem_map.mp hslot
    rw [← hr, encodeOption, List.length_cons, DifficultyAndTimestamp.codec.length_enc]
  rw [encodeWindow, encodeVector, h, List.length_map, List.drop_append, List.drop_replicate,
    List.length_replicate, ← List.map_drop, List.flatMap_append, List.length_append, hempty, hfilled]
  omega

/-- A run on the stored bytes is the run on the values.  After the first block the window is
stored as bytes that decode to it with nothing left over, and its size tells how many
blocks it knows. -/
theorem stored_run (T : Moment) (G : Difficulty) (timestamps : List Moment) :
    (run (rawOnTimestampSet T) (rawGenesis G) timestamps).map RawStorage.load =
        runGenesis T G timestamps ∧
      ∀ raw, run (rawOnTimestampSet T) (rawGenesis G) timestamps = some raw →
        timestamps ≠ [] → ∃ bytes, raw.pastDifficultiesAndTimestamps = some bytes ∧
          decodeWindow bytes = some (raw.load.pastDifficultiesAndTimestamps, []) ∧
          bytes.length = 60 + 40 * min timestamps.length 60 := by
  have hload : ∀ timestamps, (run (rawOnTimestampSet T) (rawGenesis G) timestamps).map
      RawStorage.load = runGenesis T G timestamps := by
    intro timestamps
    rw [load_run, load_rawGenesis]
    rfl
  refine ⟨hload timestamps, fun raw hraw hne => ?_⟩
  have hrun := hload timestamps
  rw [hraw, Option.map_some] at hrun
  obtain ⟨records, hlen, hwindow⟩ := run_window hrun.symm
  rw [← List.dropLast_append_getLast hne, run_concat, Option.bind_eq_some_iff] at hraw
  obtain ⟨before, _, hcall⟩ := hraw
  refine ⟨_, rawOnTimestampSet_window hcall, ?_, ?_⟩
  · have hdec := codec_window.dec_enc raw.load.pastDifficultiesAndTimestamps []
    rw [List.append_nil] at hdec
    exact hdec
  · rw [length_encodeWindow hwindow, hlen]

/-- Two blocks take 140 bytes. -/
theorem stored_run_two : ∃ raw bytes,
    run (rawOnTimestampSet blockTime) (rawGenesis 1000) [0, 60000] = some raw ∧
      raw.pastDifficultiesAndTimestamps = some bytes ∧ bytes.length = 140 := by
  obtain ⟨s, hs, _⟩ := run_completes blockTime_pos (G := 1000) (by decide) [0, 60000]
  have hstored := stored_run blockTime 1000 [0, 60000]
  rw [hs, Option.map_eq_some_iff] at hstored
  obtain ⟨⟨raw, hraw, _⟩, hbytes⟩ := hstored
  obtain ⟨bytes, hpast, _, hlen⟩ := hbytes raw hraw (by decide)
  exact ⟨raw, bytes, hraw, hpast, hlen⟩

end Difficulty
end Crain
