/-
The choice between forks.

The best block of a node is never beaten by a block the node stores: its total difficulty is
the largest, and no stored block of the same total has a seal of smaller digest
(`best_is_heaviest`).  What is stored depends on the set of blocks that were accepted and not
on their order (`Sound.agree`), and so does the one that is not beaten.  The clocks of two
nodes may have them accept blocks at different times, but once they have accepted the same
blocks they are in the same state, unless two of these collide (`nodes_agree`).
-/
import Crain.Chain.Lineage
import Crain.Pow.Binding
import Crain.Pow.TieBreak

namespace Crain
namespace Chain

open Machine Machine.Word Crain.Pow

/-- The new entry is heavier, or as heavy with a seal of smaller digest. -/
def Heavier (net : Network) (best new : Entry) : Prop :=
  best.totalDifficulty.toNat < new.totalDifficulty.toNat ∨
    best.totalDifficulty.toNat = new.totalDifficulty.toNat ∧
      ∃ ownSeal newSeal, best.rawSeal = some ownSeal ∧ new.rawSeal = some newSeal ∧
        digestValue net.blake2 newSeal < digestValue net.blake2 ownSeal

section Heavier

variable {net : Network} {a b c : Entry}

theorem Heavier.trans (hab : Heavier net a b) (hbc : Heavier net b c) : Heavier net a c := by
  rcases hab with hab | ⟨hab, s, t, hs, ht, hst⟩
  · rcases hbc with hbc | ⟨hbc, _⟩
    · exact Or.inl (Nat.lt_trans hab hbc)
    · exact Or.inl (by omega)
  · rcases hbc with hbc | ⟨hbc, t', u, ht', hu, htu⟩
    · exact Or.inl (by omega)
    · rw [ht, Option.some.injEq] at ht'
      subst ht'
      exact Or.inr ⟨hab.trans hbc, s, u, hs, hu, Nat.lt_trans htu hst⟩

theorem Heavier.irrefl (a : Entry) : ¬ Heavier net a a := by
  intro h
  rcases h with h | ⟨_, s, t, hs, ht, hst⟩
  · exact Nat.lt_irrefl _ h
  · rw [hs, Option.some.injEq] at ht
    rw [ht] at hst
    exact Nat.lt_irrefl _ hst

theorem heavier_of_seals {s t : RawSeal} (ha : a.rawSeal = some s) (hb : b.rawSeal = some t) :
    Heavier net a b ↔ a.totalDifficulty.toNat < b.totalDifficulty.toNat ∨
      a.totalDifficulty.toNat = b.totalDifficulty.toNat ∧ breakTie net.blake2 s t = true := by
  unfold Heavier breakTie
  simp only [ha, hb, Option.some.injEq, gt_iff_lt, decide_eq_true_eq, digest_lt_iff]
  simp

/-- The fork choice takes what is heavier. -/
theorem prefers_true_iff {better : Bool} (h : prefers net a b = some better) :
    better = true ↔ Heavier net a b := by
  unfold prefers at h
  by_cases hless : b.totalDifficulty < a.totalDifficulty
  · have hlt : b.totalDifficulty.toNat < a.totalDifficulty.toNat := hless
    rw [if_pos hless, Option.some.injEq] at h
    rw [← h]
    simp only [Bool.false_eq_true, false_iff]
    intro hheavier
    rcases hheavier with hheavier | ⟨heq, _⟩ <;> omega
  · have hnlt : ¬ b.totalDifficulty.toNat < a.totalDifficulty.toNat := hless
    rw [if_neg hless] at h
    by_cases hmore : a.totalDifficulty < b.totalDifficulty
    · rw [if_pos hmore, Option.some.injEq] at h
      rw [← h]
      exact iff_of_true rfl (Or.inl hmore)
    · have hnmore : ¬ a.totalDifficulty.toNat < b.totalDifficulty.toNat := hmore
      rw [if_neg hmore] at h
      cases ha : a.rawSeal with
      | none => rw [ha] at h; cases h
      | some s =>
        cases hb : b.rawSeal with
        | none => rw [ha, hb] at h; cases h
        | some t =>
          rw [ha, hb] at h
          simp only [Option.some.injEq] at h
          rw [heavier_of_seals ha hb, ← h]
          constructor
          · intro htie
            exact Or.inr ⟨by omega, htie⟩
          · intro hor
            rcases hor with hlt | ⟨_, htie⟩
            · exact absurd hlt hnmore
            · exact htie

end Heavier

/-! ## The best block -/

section Best

variable {net : Network} {importBlock : Node → Arrival → Option Node} {n n' : Node} {b : Block}
  {above entry : Entry}

/-- No stored entry beats the best one. -/
def Unbeaten (net : Network) (n : Node) : Prop :=
  ∀ hash entry, n.entries hash = some entry → ¬ Heavier net n.best.2 entry

theorem genesisNode_unbeaten (net : Network) : Unbeaten net (genesisNode net) := by
  intro hash entry h
  rw [(Derivation.eq_of_initial h).2]
  exact Heavier.irrefl _

theorem Imports.unbeaten (h : Imports net n n' b above entry) (hn : Unbeaten net n) :
    Unbeaten net n' := by
  intro hash e he
  rw [h.entries] at he
  rcases h.best with ⟨hbetter, hbest⟩ | ⟨hbetter, hbest⟩
  · have hheavier := (prefers_true_iff hbetter).mp rfl
    rw [hbest]
    by_cases hhash : hash = b.hash
    · rw [hhash, Function.update_self, Option.some.injEq] at he
      rw [← he]
      exact Heavier.irrefl entry
    · rw [Function.update_of_ne hhash] at he
      exact fun hbeats => hn hash e he (hheavier.trans hbeats)
  · rw [hbest]
    by_cases hhash : hash = b.hash
    · rw [hhash, Function.update_self, Option.some.injEq] at he
      rw [← he]
      exact fun hbeats => Bool.false_ne_true ((prefers_true_iff hbetter).mpr hbeats)
    · rw [Function.update_of_ne hhash] at he
      exact hn hash e he

theorem nodeAfter_unbeaten (himport : Documented net importBlock) (arrivals : List Arrival) :
    Unbeaten net (nodeAfter net importBlock arrivals) := by
  refine commitAll_stable (I := Unbeaten net) ?_ (genesisNode_unbeaten net) arrivals
  intro n a n' hn h
  obtain ⟨above, entry, himports⟩ := himport.imports h
  exact himports.unbeaten hn

theorem commitAll_stored (himport : Documented net importBlock) {hash : H256} {e : Entry}
    (he : n.entries hash = some e) (arrivals : List Arrival) :
    (commitAll importBlock n arrivals).entries hash = some e := by
  refine commitAll_stable (I := fun n : Node => n.entries hash = some e) ?_ he arrivals
  intro n a n' hn h
  obtain ⟨above, entry, himports⟩ := himport.imports h
  exact himports.stored hn

theorem Imports.best_stored (h : Imports net n n' b above entry)
    (hn : n.entries n.best.1 = some n.best.2) : n'.entries n'.best.1 = some n'.best.2 := by
  rcases h.best with ⟨_, hbest⟩ | ⟨_, hbest⟩
  · rw [hbest, h.entries, Function.update_self]
  · rw [hbest]
    exact h.stored hn

theorem nodeAfter_best_stored (himport : Documented net importBlock) (arrivals : List Arrival) :
    (nodeAfter net importBlock arrivals).entries (nodeAfter net importBlock arrivals).best.1 =
      some (nodeAfter net importBlock arrivals).best.2 := by
  refine commitAll_stable (I := fun n : Node => n.entries n.best.1 = some n.best.2) ?_
    (genesisNode_entries net) arrivals
  intro n a n' hn h
  obtain ⟨above, entry, himports⟩ := himport.imports h
  exact himports.best_stored hn

theorem nodeAfter_append (net : Network) (importBlock : Node → Arrival → Option Node)
    (arrivals more : List Arrival) :
    nodeAfter net importBlock (arrivals ++ more) =
      commitAll importBlock (nodeAfter net importBlock arrivals) more :=
  List.foldl_append

end Best

/-- The best block is stored, nothing that was ever stored beats it, and it is never
given up for a lighter one. -/
theorem best_is_heaviest {net : Network} {importBlock : Node → Arrival → Option Node}
    (himport : Documented net importBlock) (arrivals more : List Arrival) :
    (nodeAfter net importBlock arrivals).entries (nodeAfter net importBlock arrivals).best.1 =
        some (nodeAfter net importBlock arrivals).best.2 ∧
      (∀ hash entry, (nodeAfter net importBlock arrivals).entries hash = some entry →
        ¬ Heavier net (nodeAfter net importBlock arrivals).best.2 entry ∧
          (nodeAfter net importBlock (arrivals ++ more)).entries hash = some entry) ∧
      ¬ Heavier net (nodeAfter net importBlock (arrivals ++ more)).best.2
        (nodeAfter net importBlock arrivals).best.2 := by
  have hbest := nodeAfter_best_stored himport arrivals
  have hpersists : ∀ hash entry, (nodeAfter net importBlock arrivals).entries hash = some entry →
      (nodeAfter net importBlock (arrivals ++ more)).entries hash = some entry := by
    intro hash entry h
    rw [nodeAfter_append]
    exact commitAll_stored himport h more
  refine ⟨hbest, ?_, ?_⟩
  · intro hash entry h
    exact ⟨nodeAfter_unbeaten himport arrivals hash entry h, hpersists hash entry h⟩
  · exact nodeAfter_unbeaten himport (arrivals ++ more) _ _ (hpersists _ _ hbest)

theorem best_is_heaviest_sample :
    ¬ Heavier sampleNetwork
      (nodeAfter sampleNetwork (importBlock sampleNetwork)
        [⟨sampleBlock 0, 60000⟩, ⟨sampleBlock 1, 60000⟩]).best.2
      (nodeAfter sampleNetwork (importBlock sampleNetwork) [⟨sampleBlock 0, 60000⟩]).best.2 :=
  (best_is_heaviest (importBlock_documented sampleNetwork) [⟨sampleBlock 0, 60000⟩]
    [⟨sampleBlock 1, 60000⟩]).2.2

/-! ## Agreement -/

/-- Two blocks whose seals have one digest.  Either the seals differ and the digest collides,
or one seal was computed for two blocks, or two headers have one hash without the seal. -/
structure Collide (net : Network) (b c : Block) : Prop where
  hash_ne : b.hash ≠ c.hash
  digest : net.blake2 b.rawSeal = net.blake2 c.rawSeal
  collision : b.rawSeal ≠ c.rawSeal ∨
    (∃ difficulty nonce, Collides net.sha3 ⟨difficulty, b.preHash, nonce⟩
      ⟨difficulty, c.preHash, nonce⟩) ∨
    (b.rawSeal = c.rawSeal ∧ b.preHash = c.preHash)

section Agreement

variable {net : Network} {importBlock : Node → Arrival → Option Node} {past : List Block} {n : Node}

/-- Blocks with seals of one digest are the same or collide. -/
theorem collide_of_digest {b c : Block} {difficulty difficulty' : U256}
    (hb : verify net.sha3 b.preHash b.rawSeal difficulty = (.ok true : Except PowError Bool))
    (hc : verify net.sha3 c.preHash c.rawSeal difficulty' = (.ok true : Except PowError Bool))
    (hdigest : net.blake2 b.rawSeal = net.blake2 c.rawSeal) (hne : b.hash ≠ c.hash) :
    Collide net b c := by
  refine ⟨hne, hdigest, ?_⟩
  by_cases hseal : b.rawSeal = c.rawSeal
  · by_cases hpre : b.preHash = c.preHash
    · exact Or.inr (Or.inr ⟨hseal, hpre⟩)
    · rw [← hseal] at hc
      obtain ⟨s, _, hcompute, hcompute'⟩ := attempts_of_verify hb hc
      have hsame : difficulty = difficulty' :=
        congrArg Seal.difficulty (hcompute.symm.trans hcompute')
      rw [← hsame] at hcompute'
      exact Or.inr (Or.inl ⟨difficulty, s.nonce, collides_of_compute
        (fun heq => hpre (congrArg Compute.preHash heq)) (hcompute.symm.trans hcompute')⟩)
  · exact Or.inl hseal

/-- A stored entry is the genesis one or that of an accepted block, whose seal was valid. -/
theorem Holds.cases (h : Holds net past n) (hsane : n.Sane net) {hash : H256} {entry : Entry}
    (hentry : n.entries hash = some entry) :
    (hash = net.genesisHash ∧ entry = genesisEntry net) ∨
      (0 < entry.totalDifficulty.toNat ∧ ∃ b ∈ past, b.hash = hash ∧
        entry.rawSeal = some b.rawSeal ∧ ∃ difficulty,
          verify net.sha3 b.preHash b.rawSeal difficulty = (.ok true : Except PowError Bool)) := by
  obtain ⟨path, hpath⟩ := h.sound.2 _ _ hentry
  cases hpath with
  | root => exact Or.inl ⟨rfl, rfl⟩
  | @concat path b above entry hprev hmem hne hderived =>
    obtain ⟨hvalid, _, storage, _, hbelow⟩ := derive_eq_some_iff.mp hderived
    have hseal : entry.rawSeal = some b.rawSeal := by
      rw [hbelow]
      rfl
    have hweighs := (hsane.entries _ _ hentry).weighs _ hseal
    exact Or.inr ⟨hweighs, b, hmem, rfl, hseal, _, hvalid⟩

/-- Two unbeaten entries of one store are the same, unless their blocks collide. -/
theorem unbeaten_unique (h : Holds net past n) (hsane : n.Sane net) {best best' : H256 × Entry}
    (hbest : n.entries best.1 = some best.2) (hbest' : n.entries best'.1 = some best'.2)
    (hle : ¬ Heavier net best.2 best'.2) (hle' : ¬ Heavier net best'.2 best.2) :
    best = best' ∨ ∃ b ∈ past, ∃ c ∈ past, Collide net b c := by
  have htotal : best.2.totalDifficulty.toNat = best'.2.totalDifficulty.toNat :=
    Nat.le_antisymm (Nat.le_of_not_lt fun h => hle' (Or.inl h))
      (Nat.le_of_not_lt fun h => hle (Or.inl h))
  by_cases hkey : best.1 = best'.1
  · have hentry : best.2 = best'.2 := by
      rw [hkey, hbest', Option.some.injEq] at hbest
      exact hbest.symm
    exact Or.inl (Prod.ext hkey hentry)
  · rcases h.cases hsane hbest with ⟨hroot, horigin⟩ | ⟨hpos, b, hb, hhash, hseal, _, hvalid⟩
    · rcases h.cases hsane hbest' with ⟨hroot', _⟩ | ⟨hpos', _⟩
      · exact absurd (hroot.trans hroot'.symm) hkey
      · rw [← htotal, horigin] at hpos'
        exact absurd hpos' (Nat.lt_irrefl 0)
    · rcases h.cases hsane hbest' with ⟨_, horigin'⟩ | ⟨_, c, hc, hhash', hseal', _, hvalid'⟩
      · rw [htotal, horigin'] at hpos
        exact absurd hpos (Nat.lt_irrefl 0)
      · have hge : ¬ digestValue net.blake2 c.rawSeal < digestValue net.blake2 b.rawSeal :=
          fun hlt => hle (Or.inr ⟨htotal, _, _, hseal, hseal', hlt⟩)
        have hge' : ¬ digestValue net.blake2 b.rawSeal < digestValue net.blake2 c.rawSeal :=
          fun hlt => hle' (Or.inr ⟨htotal.symm, _, _, hseal', hseal, hlt⟩)
        have hdigests : net.blake2 b.rawSeal = net.blake2 c.rawSeal :=
          Bytes.eq_of_beValue_eq (Nat.le_antisymm (Nat.le_of_not_lt hge) (Nat.le_of_not_lt hge'))
        have hne : b.hash ≠ c.hash := by
          rw [hhash, hhash']
          exact hkey
        exact Or.inr ⟨b, hb, c, hc, collide_of_digest hvalid hvalid' hdigests hne⟩

end Agreement

/-- Nodes that accepted the same blocks, each in its own order and by its own clock, are in
the same state unless two of these blocks collide. -/
theorem nodes_agree {net : Network} {importBlock importBlock' : Node → Arrival → Option Node}
    (hnet : net.Sane) (himport : Documented net importBlock) (himport' : Documented net importBlock')
    (arrivals arrivals' : List Arrival)
    (hsame : ∀ b, b ∈ accepted net importBlock arrivals ↔
      b ∈ accepted net importBlock' arrivals') :
    nodeAfter net importBlock arrivals = nodeAfter net importBlock' arrivals' ∨
      ∃ b ∈ accepted net importBlock arrivals, ∃ c ∈ accepted net importBlock arrivals,
        Collide net b c := by
  have hholds := holds_nodeAfter himport arrivals
  have hholds' := holds_nodeAfter himport' arrivals'
  have hentries : (nodeAfter net importBlock arrivals).entries =
      (nodeAfter net importBlock' arrivals').entries :=
    hholds.sound.agree hholds.distinct (hholds'.sound.mono fun b hb => (hsame b).mpr hb)
      hholds.stored fun b hb => hholds'.stored b ((hsame b).mp hb)
  have hbest := nodeAfter_best_stored himport arrivals
  have hbest' := nodeAfter_best_stored himport' arrivals'
  have hle' := nodeAfter_unbeaten himport' arrivals' _ _ (hentries ▸ hbest)
  rw [← hentries] at hbest'
  have hle := nodeAfter_unbeaten himport arrivals _ _ hbest'
  cases unbeaten_unique hholds (nodeAfter_sane hnet himport arrivals) hbest hbest' hle hle' with
  | inl heq => exact Or.inl (Node.ext hentries heq)
  | inr hcollide => exact Or.inr hcollide

/-- The second node refuses a block that is ahead of its clock, and takes it later. -/
theorem nodes_agree_sample :
    nodeAfter sampleNetwork (importBlock sampleNetwork)
        [⟨sampleBlock 0, 60000⟩, ⟨sampleBlock 1, 60000⟩] =
      nodeAfter sampleNetwork (importBlock sampleNetwork)
        [⟨sampleBlock 0, 0⟩, ⟨sampleBlock 1, 60000⟩, ⟨sampleBlock 0, 60000⟩] := by
  have haccepted : accepted sampleNetwork (importBlock sampleNetwork)
      [⟨sampleBlock 0, 60000⟩, ⟨sampleBlock 1, 60000⟩] = [sampleBlock 0, sampleBlock 1] := by
    decide +kernel
  have haccepted' : accepted sampleNetwork (importBlock sampleNetwork)
      [⟨sampleBlock 0, 0⟩, ⟨sampleBlock 1, 60000⟩, ⟨sampleBlock 0, 60000⟩] =
        [sampleBlock 1, sampleBlock 0] := by
    decide +kernel
  have hagree := nodes_agree sampleNetwork_sane (importBlock_documented sampleNetwork)
    (importBlock_documented sampleNetwork) [⟨sampleBlock 0, 60000⟩, ⟨sampleBlock 1, 60000⟩]
    [⟨sampleBlock 0, 0⟩, ⟨sampleBlock 1, 60000⟩, ⟨sampleBlock 0, 60000⟩] (fun b => by
      rw [haccepted, haccepted']
      simp [or_comm])
  refine hagree.resolve_right fun hcollide => ?_
  obtain ⟨b, hb, c, hc, hcollide⟩ := hcollide
  rw [haccepted] at hb hc
  have hdistinct : ∀ b ∈ [sampleBlock 0, sampleBlock 1], ∀ c ∈ [sampleBlock 0, sampleBlock 1],
      sampleNetwork.blake2 b.rawSeal = sampleNetwork.blake2 c.rawSeal → b.hash = c.hash := by
    decide +kernel
  exact hcollide.hash_ne (hdistinct b hb c hc hcollide.digest)

/-! ## Mining -/

/-- A block on top of the best one is heavier, unless the total stands at its cap already and
the tie is lost. -/
theorem heavier_below {net : Network} {above : Entry} (habove : above.Sane net) (b : Block)
    (storage : Difficulty.Storage) :
    Heavier net above (below above b storage) ↔
      above.totalDifficulty ≠ BitVec.allOnes 256 ∨ ∃ ownSeal, above.rawSeal = some ownSeal ∧
        breakTie net.blake2 ownSeal b.rawSeal = true := by
  have hpos := habove.difficulty_pos
  have hlt := above.totalDifficulty.isLt
  have htotal : (below above b storage).totalDifficulty.toNat =
      min (above.totalDifficulty.toNat + above.storage.currentDifficulty.toNat) (2 ^ 256 - 1) :=
    toNat_saturatingAdd _ _
  have hcap : above.totalDifficulty = BitVec.allOnes 256 ↔
      above.totalDifficulty.toNat = 2 ^ 256 - 1 := by
    rw [← BitVec.toNat_inj, BitVec.toNat_allOnes]
  unfold Heavier breakTie
  rw [htotal, Ne, hcap]
  simp only [below, Option.some.injEq, gt_iff_lt, decide_eq_true_eq, digest_lt_iff]
  by_cases hfull : above.totalDifficulty.toNat = 2 ^ 256 - 1
  · have hsame : min (above.totalDifficulty.toNat + above.storage.currentDifficulty.toNat)
        (2 ^ 256 - 1) = above.totalDifficulty.toNat := by omega
    rw [hsame]
    simp [hfull]
  · exact iff_of_true (Or.inl (by omega)) (Or.inl hfull)

/-- What the mining loop submits for the best block is imported, and is the new best block
unless the total difficulty has reached its cap and the tie is lost. -/
theorem mined_block_imported {net : Network} {importBlock : Node → Arrival → Option Node}
    (hnet : net.Sane) (himport : Documented net importBlock) (haccepts : Accepts net importBlock)
    (arrivals : List Arrival) {n : Node} (hn : nodeAfter net importBlock arrivals = n) :
    ∃ difficulty, Pow.difficulty (runtimeApi net n) n.best.1 = .ok difficulty ∧
      ∀ nonce (a : Arrival),
        (mineStep net.sha3 nonce (some ⟨a.block.preHash, difficulty⟩)).2 = some a.block.rawSeal →
        a.block.parent = n.best.1 → n.entries a.block.hash = none →
        net.executes a.block = true → net.inherents a.block a.now = true →
          ∃ n', importBlock n a = some n' ∧
            (n'.best.1 = a.block.hash ↔ n.best.2.totalDifficulty ≠ BitVec.allOnes 256 ∨
              ∃ ownSeal, n.best.2.rawSeal = some ownSeal ∧
                breakTie net.blake2 ownSeal a.block.rawSeal = true) := by
  have hsane := nodeAfter_sane hnet himport arrivals
  rw [hn] at hsane
  refine ⟨_, difficulty_of_known hsane.best, fun nonce a hmined hparent hfree hexec hcheck => ?_⟩
  have hseal : verify net.sha3 a.block.preHash a.block.rawSeal n.best.2.storage.currentDifficulty =
      (.ok true : Except PowError Bool) := by
    obtain ⟨hraw, hsolves⟩ := mineStep_submits_iff.mp hmined
    rw [hraw]
    exact verify_encode.mpr hsolves
  have hknown : n.entries a.block.parent = some n.best.2 := by
    rw [hparent]
    exact hsane.best
  obtain ⟨n', hn'⟩ := exists_import hnet haccepts hsane hfree hknown hseal hexec hcheck
  obtain ⟨above, entry, himports⟩ := himport.imports hn'
  have habove := himports.parent
  rw [hknown, Option.some.injEq] at habove
  subst habove
  obtain ⟨_, _, storage, _, hentry⟩ := derive_eq_some_iff.mp himports.derived
  refine ⟨n', hn', ?_⟩
  rw [← heavier_below (hsane.entries _ _ hsane.best) a.block storage, ← hentry]
  rcases himports.best with ⟨hbetter, hbest⟩ | ⟨hbetter, hbest⟩
  · have hheavier := (prefers_true_iff hbetter).mp rfl
    rw [hbest]
    exact iff_of_true rfl hheavier
  · have hlighter : ¬ Heavier net n.best.2 entry := fun h =>
      Bool.false_ne_true ((prefers_true_iff hbetter).mpr h)
    have hother : n'.best.1 ≠ a.block.hash := by
      intro heq
      rw [hbest] at heq
      rw [← heq, hsane.best] at hfree
      cases hfree
    exact iff_of_false hother hlighter

/-- A second block is mined on top of the first. -/
theorem mined_block_imported_sample :
    ∃ n', importBlock sampleNetwork
        (nodeAfter sampleNetwork (importBlock sampleNetwork) [⟨sampleBlock 0, 60000⟩])
        ⟨sampleChild, 120000⟩ = some n' ∧ n'.best.1 = sampleChild.hash := by
  obtain ⟨difficulty, hdifficulty, hmined⟩ := mined_block_imported sampleNetwork_sane
    (importBlock_documented sampleNetwork) (importBlock_accepts sampleNetwork)
    [⟨sampleBlock 0, 60000⟩] rfl
  have hbest := (nodeAfter_sane sampleNetwork_sane (importBlock_documented sampleNetwork)
    [⟨sampleBlock 0, 60000⟩]).best
  have hread : difficulty = 1005 := by
    have hcurrent : (nodeAfter sampleNetwork (importBlock sampleNetwork)
        [⟨sampleBlock 0, 60000⟩]).best.2.storage.currentDifficulty = 1005 := by
      decide +kernel
    rw [difficulty_of_known hbest, hcurrent] at hdifficulty
    exact (Except.ok.inj hdifficulty).symm
  subst hread
  have hsubmitted : (mineStep sampleNetwork.sha3 0 (some ⟨sampleChild.preHash, 1005⟩)).2 =
      some sampleChild.rawSeal := by
    refine mineStep_submits_iff.mpr ⟨rfl, rfl, ?_⟩
    show Bytes.beValue (List.replicate 32 0) * (1005 : U256).toNat < 2 ^ 256
    decide
  have hfree : (nodeAfter sampleNetwork (importBlock sampleNetwork)
      [⟨sampleBlock 0, 60000⟩]).entries sampleChild.hash = none :=
    Option.isNone_iff_eq_none.mp (by decide +kernel)
  obtain ⟨n', hn', hheaviest⟩ := hmined 0 ⟨sampleChild, 120000⟩ hsubmitted (by decide +kernel) hfree
    rfl rfl
  exact ⟨n', hn', hheaviest.mpr (Or.inl (by decide +kernel))⟩

end Chain
end Crain
