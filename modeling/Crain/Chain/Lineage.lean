/-
The chain behind a stored block.

The state of the difficulty pallet after a block is not part of the block.  It can still be
computed from the headers between the genesis block and the block alone, because a seal
that passes verification claims the difficulty its parent's state reports
(`claimed_of_verify`).  So the claims of a chain are the outputs of the pallet's run over its
timestamps, they fill the pallet's window, and their sum is the total difficulty that
the fork choice compares (`stored_chain`).
-/
import Crain.Chain.Sane

namespace Crain
namespace Chain

open Machine Machine.Word Crain.Pow

/-- The difficulty that the seal of a block claims. -/
def claimed (b : Block) : Difficulty :=
  match Seal.decode b.rawSeal with
  | some (s, _) => s.difficulty
  | none => 0

/-- The slot of the pallet's window that a header stands for. -/
def headerSlot (b : Block) : Difficulty.Slot := some ⟨claimed b, b.timestamp⟩

/-- The pallet's state after a chain of headers. -/
def palletAfter (net : Network) (chain : List Block) : Option Difficulty.Storage :=
  Difficulty.runGenesis net.targetBlockTime net.initialDifficulty (chain.map Block.timestamp)

/-- An entry as its chain of headers determines it. -/
structure FromHeaders (net : Network) (chain : List Block) (entry : Entry) : Prop where
  storage : palletAfter net chain = some entry.storage
  window : entry.storage.pastDifficultiesAndTimestamps.toList =
    (List.replicate 60 none ++ chain.map headerSlot).drop chain.length
  total : entry.totalDifficulty.toNat =
    min (chain.map fun b => (claimed b).toNat).sum (2 ^ 256 - 1)

/-- The seal of a header is valid at the difficulty it claims, which is the one that the
pallet computes from the headers before it. -/
def SealedAfter (net : Network) (before : List Block) (b : Block) : Prop :=
  verify net.sha3 b.preHash b.rawSeal (claimed b) = (.ok true : Except PowError Bool) ∧
    ∃ storage, palletAfter net before = some storage ∧ claimed b = storage.currentDifficulty

section Headers

variable {net : Network} {chain : List Block} {b : Block} {above entry : Entry}

/-- A seal that passes verification claims the difficulty it was verified at. -/
theorem claimed_of_verify {difficulty : U256}
    (h : verify net.sha3 b.preHash b.rawSeal difficulty = (.ok true : Except PowError Bool)) :
    claimed b = difficulty := by
  obtain ⟨s, hlen, htake, hsolves⟩ := verify_eq_true_iff.mp h
  have hdecode := Seal.codec.dec_fst_iff.mpr ⟨hlen, htake⟩
  rw [Option.map_eq_some_iff] at hdecode
  obtain ⟨p, hp, hps⟩ := hdecode
  unfold claimed
  rw [hp]
  show p.1.difficulty = difficulty
  rw [hps, hsolves.1]
  rfl

theorem fromHeaders_genesis (net : Network) : FromHeaders net [] (genesisEntry net) where
  storage := rfl
  window := by
    show (Vector.replicate 60 none).toList = _
    simp
  total := rfl

/-- A derived entry is that of the chain with one more header. -/
theorem FromHeaders.derive (hT : 0 < net.targetBlockTime.toNat) (h : FromHeaders net chain above)
    (hderived : derive net above b = some entry) :
    SealedAfter net chain b ∧ FromHeaders net (chain ++ [b]) entry := by
  obtain ⟨hseal, _, storage, hstorage, hentry⟩ := derive_eq_some_iff.mp hderived
  have hclaimed := claimed_of_verify hseal
  subst hentry
  refine ⟨⟨?_, above.storage, h.storage, hclaimed⟩, ?_, ?_, ?_⟩
  · rw [hclaimed]
    exact hseal
  · rw [palletAfter, List.map_append, Difficulty.runGenesis, Difficulty.runFrom]
    show run _ _ (chain.map Block.timestamp ++ [b.timestamp]) = _
    have hrun : run (Difficulty.onTimestampSet net.targetBlockTime)
        (Difficulty.genesis net.initialDifficulty) (chain.map Block.timestamp) =
          some above.storage := h.storage
    rw [run_concat, hrun, Option.bind_some]
    exact hstorage
  · have hnext := Difficulty.eq_next hT hstorage
    have hslot : headerSlot b = some ⟨above.storage.currentDifficulty, b.timestamp⟩ := by
      rw [headerSlot, hclaimed]
    have hwindow := h.window
    rw [← List.length_map headerSlot] at hwindow
    have hlen : (chain ++ [b]).length = (chain.map headerSlot ++ [headerSlot b]).length := by
      simp
    rw [hlen, List.map_append]
    show storage.pastDifficultiesAndTimestamps.toList = _
    rw [hnext]
    show (Difficulty.nextWindow above.storage b.timestamp).toList = _
    rw [Difficulty.nextWindow, ← hslot]
    exact Register.toList_push_of_drop List.length_replicate hwindow (headerSlot b)
  · show (saturatingAdd above.totalDifficulty above.storage.currentDifficulty).toNat = _
    rw [toNat_saturatingAdd, h.total, List.map_append, List.sum_append, ← hclaimed]
    simp only [List.map_cons, List.map_nil, List.sum_cons, List.sum_nil]
    omega

end Headers

/-- What a node holds that accepted the given blocks. -/
structure Holds (net : Network) (past : List Block) (n : Node) : Prop where
  sound : (blocks net).Sound net.genesisHash (genesisEntry net) (· ∈ past) n.entries
  stored : ∀ b ∈ past, (n.entries b.hash).isSome
  distinct : ∀ b c, b ∈ past → c ∈ past → b.hash = c.hash → b = c

section Lineage

variable {net : Network} {importBlock : Node → Arrival → Option Node} {past : List Block}
  {n n' : Node} {b : Block} {above entry : Entry}

theorem holds_genesisNode (net : Network) : Holds net [] (genesisNode net) where
  sound := Derivation.sound_initial _
  stored b hb := by cases hb
  distinct b c hb := by cases hb

theorem Imports.stored (h : Imports net n n' b above entry) {hash : H256} {e : Entry}
    (he : n.entries hash = some e) : n'.entries hash = some e := by
  have hne : hash ≠ b.hash := by
    intro heq
    rw [heq, h.free] at he
    cases he
  rw [h.entries, Function.update_of_ne hne]
  exact he

theorem Holds.imports (h : Holds net past n) (himports : Imports net n n' b above entry) :
    Holds net (past ++ [b]) n' := by
  -- An accepted block has a new hash, because those accepted before are all stored.
  have hnew : ∀ c ∈ past, c.hash ≠ b.hash := by
    intro c hc heq
    have hthere := h.stored c hc
    rw [heq, himports.free] at hthere
    cases hthere
  refine ⟨?_, ?_, ?_⟩
  · rw [himports.entries]
    refine Derivation.Sound.update (h.sound.mono fun c hc => List.mem_append_left _ hc)
      (List.mem_append_right _ (List.mem_singleton_self b)) himports.free himports.parent
      himports.derived
  · intro c hc
    rw [List.mem_append, List.mem_singleton] at hc
    cases hc with
    | inl hold =>
      obtain ⟨e, he⟩ := Option.isSome_iff_exists.mp (h.stored c hold)
      rw [himports.stored he]
      rfl
    | inr hlast =>
      rw [hlast, himports.entries, Function.update_self]
      rfl
  · intro c c' hc hc' heq
    rw [List.mem_append, List.mem_singleton] at hc hc'
    rcases hc with hold | hlast
    · rcases hc' with hold' | hlast'
      · exact h.distinct c c' hold hold' heq
      · rw [hlast'] at heq
        exact absurd heq (hnew c hold)
    · rcases hc' with hold' | hlast'
      · rw [hlast] at heq
        exact absurd heq.symm (hnew c' hold')
      · rw [hlast, hlast']

theorem holds_nodeAfter (himport : Documented net importBlock) (arrivals : List Arrival) :
    Holds net (accepted net importBlock arrivals) (nodeAfter net importBlock arrivals) :=
  commitAll_history (P := fun past n => Holds net (past.map Arrival.block) n)
    (fun past n a n' hn h => by
      obtain ⟨above, entry, himports⟩ := himport.imports h
      rw [List.map_append]
      exact hn.imports himports)
    (holds_genesisNode net) arrivals

/-- Along a lineage every header is sealed after those before it. -/
theorem fromHeaders_of_lineage (hT : 0 < net.targetBlockTime.toNat) {known : Block → Prop}
    {chain : List Block} {hash : H256} {entry : Entry}
    (h : (blocks net).Lineage net.genesisHash (genesisEntry net) known chain hash entry) :
    FromHeaders net chain entry ∧
      ∀ i (hi : i < chain.length), SealedAfter net (chain.take i) chain[i] := by
  induction h with
  | root => exact ⟨fromHeaders_genesis net, fun i hi => absurd hi (Nat.not_lt_zero i)⟩
  | @concat chain b above entry _ _ _ hderived ih =>
    obtain ⟨hheaders, hsealed⟩ := ih
    obtain ⟨hlast, hnext⟩ := hheaders.derive hT hderived
    refine ⟨hnext, fun i hi => ?_⟩
    by_cases hold : i < chain.length
    · rw [List.take_append_of_le_length (Nat.le_of_lt hold), List.getElem_append_left hold]
      exact hsealed i hold
    · rw [List.length_append, List.length_singleton] at hi
      have heq : i = chain.length := by omega
      subst heq
      rw [List.take_append_of_le_length (Nat.le_refl _), List.take_length,
        List.getElem_concat_length rfl]
      exact hlast

end Lineage

/-- Every stored block ends a chain of accepted headers from the genesis block, and these
determine its entry. -/
theorem stored_chain {net : Network} {importBlock : Node → Arrival → Option Node}
    (hT : 0 < net.targetBlockTime.toNat) (himport : Documented net importBlock)
    (arrivals : List Arrival) {hash : H256} {entry : Entry}
    (h : (nodeAfter net importBlock arrivals).entries hash = some entry) :
    ∃ chain : List Block, (∀ b ∈ chain, b ∈ accepted net importBlock arrivals) ∧
      chain.map Block.parent ++ [hash] = net.genesisHash :: chain.map Block.hash ∧
      FromHeaders net chain entry ∧
      ∀ i (hi : i < chain.length), SealedAfter net (chain.take i) chain[i] := by
  obtain ⟨chain, hlineage⟩ := (holds_nodeAfter himport arrivals).sound.2 hash entry h
  obtain ⟨hheaders, hsealed⟩ := fromHeaders_of_lineage hT hlineage
  exact ⟨chain, hlineage.known_of_mem, hlineage.links, hheaders, hsealed⟩

/-- Behind the second block there is a chain of more than one header. -/
theorem stored_chain_sample : ∃ entry chain, FromHeaders sampleNetwork chain entry ∧
    chain.map Block.parent ++ [sampleChild.hash] = blankHash :: chain.map Block.hash ∧
      1 < chain.length := by
  have harrived : ((nodeAfter sampleNetwork (importBlock sampleNetwork)
      [⟨sampleBlock 0, 60000⟩, ⟨sampleChild, 120000⟩]).entries sampleChild.hash).isSome := by
    decide +kernel
  have haccepted : accepted sampleNetwork (importBlock sampleNetwork)
      [⟨sampleBlock 0, 60000⟩, ⟨sampleChild, 120000⟩] = [sampleBlock 0, sampleChild] := by
    decide +kernel
  obtain ⟨entry, hentry⟩ := Option.isSome_iff_exists.mp harrived
  obtain ⟨chain, hmem, hlinks, hheaders, _⟩ := stored_chain blockTime_pos
    (importBlock_documented sampleNetwork) [⟨sampleBlock 0, 60000⟩, ⟨sampleChild, 120000⟩] hentry
  refine ⟨entry, chain, hheaders, hlinks, ?_⟩
  rw [haccepted] at hmem
  match chain, hmem, hlinks with
  | [], _, hlinks => exact absurd hlinks (by decide)
  | [b], hmem, hlinks =>
    have hb := hmem b (List.mem_singleton_self b)
    simp only [List.mem_cons, List.not_mem_nil, or_false] at hb
    rcases hb with hb | hb <;> rw [hb] at hlinks <;> exact absurd hlinks (by decide)
  | _ :: _ :: _, _, _ => simp

end Chain
end Crain
