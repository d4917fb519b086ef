/-
The mining thread beside the authoring task.

`new_full` in `node/src/service.rs` starts both, and they share a handle.  The authoring task
offers a build through it, replaces it when the best block changes, and withdraws it while
the node syncs.  The mining thread reads the metadata of the build, tries one nonce, submits
what it finds and waits for the answer.  In between the build may have changed.

The handle comes from the consensus crate and is not part of the repository.  It is a
parameter, and `Documented` is what that crate documents of it: a seal is validated when it
is submitted, whatever the thread thinks of it, and a build whose seal was accepted is gone.

In every interleaving the thread submits only seals that solve a build it read, and those
that are accepted were mined for the build they use up, which none of the others uses
(`worker_safe`).  A seal that was mined for another build is refused, unless the digest
collides.
-/
import Crain.Machine.Run
import Crain.Pow.Binding
import Crain.Pow.Mining

namespace Crain
namespace Pow

open Machine

/-- The operations of a shared handle on its state. -/
structure MiningHandle (σ : Type) where
  start : σ
  /-- The metadata of the build at hand. -/
  metadata : σ → Option Metadata
  offer : σ → Metadata → σ
  withdraw : σ → σ
  /-- Whatever else happens in the node. -/
  elapse : σ → σ
  /-- Submit a seal, and learn whether it was accepted. -/
  submit : σ → RawSeal → σ × Bool

/-- Where the mining thread is in its loop. -/
inductive Round where
  | idle
  | mining (metadata : Metadata)
  | submitting (metadata : Metadata) (rawSeal : RawSeal)

structure Worker (σ : Type) where
  /-- The state of the handle. -/
  shared : σ
  nonce : U256
  round : Round
  /-- The accepted seals, each with the build at hand when it was accepted. -/
  accepted : List (Metadata × RawSeal)

inductive Event where
  | offer (metadata : Metadata)
  | withdraw
  | elapse
  | read
  | finish
  | settle

def Event.offered : Event → Option Metadata
  | .offer metadata => some metadata
  | _ => none

namespace Worker

variable {σ : Type}

/-- What is documented of the handle.  Some blocks are imported with a seal, and nothing is
promised of the others. -/
structure Documented (sha3 : List Byte → H256) (handle : MiningHandle σ)
    (imports : σ → RawSeal → Prop) : Prop where
  starts : handle.metadata handle.start = none
  offers : ∀ s metadata, handle.metadata (handle.offer s metadata) = some metadata
  withdraws : ∀ s, handle.metadata (handle.withdraw s) = none
  elapses : ∀ s, handle.metadata (handle.elapse s) = handle.metadata s
  /-- A seal is accepted for a build that it solves only. -/
  validates : ∀ {s rawSeal}, (handle.submit s rawSeal).2 = true → ∃ metadata,
    handle.metadata s = some metadata ∧
      verify sha3 metadata.preHash rawSeal metadata.difficulty = (.ok true : Except PowError Bool)
  /-- Submitting a seal makes no build, and an accepted one takes the build away. -/
  takes : ∀ s rawSeal, handle.metadata (handle.submit s rawSeal).1 = none ∨
    ((handle.submit s rawSeal).2 = false ∧
      handle.metadata (handle.submit s rawSeal).1 = handle.metadata s)
  accepts : ∀ {s rawSeal metadata}, handle.metadata s = some metadata →
    verify sha3 metadata.preHash rawSeal metadata.difficulty =
      (.ok true : Except PowError Bool) →
    imports s rawSeal → (handle.submit s rawSeal).2 = true

section Step

variable (sha3 : List Byte → H256) (handle : MiningHandle σ)

def start : Worker σ where
  shared := handle.start
  nonce := 0
  round := .idle
  accepted := []

/-- The round after reading what is at hand. -/
def readRound : Option Metadata → Round
  | some metadata => .mining metadata
  | none => .idle

/-- The round after trying a nonce. -/
def finishRound (metadata : Metadata) : Option RawSeal → Round
  | some rawSeal => .submitting metadata rawSeal
  | none => .idle

/-- The submission takes effect. -/
def settle (w : Worker σ) (rawSeal : RawSeal) : Worker σ where
  shared := (handle.submit w.shared rawSeal).1
  nonce := w.nonce
  round := .idle
  accepted :=
    if (handle.submit w.shared rawSeal).2 then
      w.accepted ++ (handle.metadata w.shared).toList.map fun metadata => (metadata, rawSeal)
    else w.accepted

/-- One event, or `none` where the mining thread is elsewhere in its loop. -/
def step (w : Worker σ) : Event → Option (Worker σ)
  | .offer metadata => some { w with shared := handle.offer w.shared metadata }
  | .withdraw => some { w with shared := handle.withdraw w.shared }
  | .elapse => some { w with shared := handle.elapse w.shared }
  | .read =>
    match w.round with
    | .idle => some { w with round := readRound (handle.metadata w.shared) }
    | _ => none
  | .finish =>
    match w.round with
    | .mining metadata =>
      let (nonce, rawSeal) := mineStep sha3 w.nonce (some metadata)
      some { w with nonce := nonce, round := finishRound metadata rawSeal }
    | _ => none
  | .settle =>
    match w.round with
    | .submitting _ rawSeal => some (settle handle w rawSeal)
    | _ => none

end Step

@[simp] theorem readRound_eq_mining_iff {build : Option Metadata} {metadata : Metadata} :
    readRound build = .mining metadata ↔ build = some metadata := by
  cases build <;> simp [readRound]

@[simp] theorem readRound_ne_submitting {build : Option Metadata} {metadata : Metadata}
    {rawSeal : RawSeal} : readRound build ≠ .submitting metadata rawSeal := by
  cases build <;> simp [readRound]

@[simp] theorem finishRound_ne_mining {metadata other : Metadata} {found : Option RawSeal} :
    finishRound metadata found ≠ .mining other := by
  cases found <;> simp [finishRound]

@[simp] theorem finishRound_eq_submitting_iff {metadata other : Metadata} {found : Option RawSeal}
    {rawSeal : RawSeal} :
    finishRound metadata found = .submitting other rawSeal ↔
      metadata = other ∧ found = some rawSeal := by
  cases found <;> simp [finishRound]

/-- The builds offered, in order. -/
def offered (events : List Event) : List Metadata := events.filterMap Event.offered

theorem offered_concat (events : List Event) (e : Event) :
    offered (events ++ [e]) = offered events ++ e.offered.toList := by
  rw [offered, List.filterMap_append]
  cases e <;> rfl

/-! ## Seals -/

/-- A seal that a round found for a build. -/
structure Found (sha3 : List Byte → H256) (metadata : Metadata) (nonce : U256) (rawSeal : RawSeal) :
    Prop where
  nonce_lt : nonce.toNat < nonceCount
  hits : Hits sha3 metadata nonce
  rawSeal_eq : rawSeal = (attemptAt sha3 metadata nonce).encode

section Seals

variable {sha3 : List Byte → H256} {metadata : Metadata} {nonce : U256} {rawSeal : RawSeal}

/-- What a round finds solves the build it was found for. -/
theorem Found.verify (h : Found sha3 metadata nonce rawSeal) :
    Pow.verify sha3 metadata.preHash rawSeal metadata.difficulty =
      (.ok true : Except PowError Bool) := by
  rw [h.rawSeal_eq]
  exact verify_encode.mpr ((solves_compute_iff nonce).mpr h.hits)

/-- A seal found for one build that solves another is at the same difficulty, and for the same
block unless the digest collides. -/
theorem Found.binds {other : Metadata} (h : Found sha3 other nonce rawSeal)
    (hsolves : Pow.verify sha3 metadata.preHash rawSeal metadata.difficulty =
      (.ok true : Except PowError Bool)) :
    other.difficulty = metadata.difficulty ∧ (other.preHash = metadata.preHash ∨
      Collides sha3 ⟨other.difficulty, other.preHash, nonce⟩
        ⟨metadata.difficulty, metadata.preHash, nonce⟩) := by
  rw [h.rawSeal_eq] at hsolves
  have hsame : Compute.compute sha3 ⟨other.difficulty, other.preHash, nonce⟩ =
      Compute.compute sha3 ⟨metadata.difficulty, metadata.preHash, nonce⟩ :=
    (verify_encode.mp hsolves).1
  refine ⟨congrArg Seal.difficulty hsame, ?_⟩
  by_cases hpre : other.preHash = metadata.preHash
  · exact Or.inl hpre
  · exact Or.inr (collides_of_compute (fun heq => hpre (congrArg Compute.preHash heq)) hsame)

end Seals

/-! ## Every interleaving -/

/-- A seal that used up a build: it solves the build, and was found for an offered one of the
same difficulty and the same block, unless the digest collides. -/
structure UsesUp (sha3 : List Byte → H256) (events : List Event) (metadata : Metadata)
    (rawSeal : RawSeal) : Prop where
  solves : verify sha3 metadata.preHash rawSeal metadata.difficulty =
    (.ok true : Except PowError Bool)
  found : ∃ other ∈ offered events, ∃ nonce, Found sha3 other nonce rawSeal ∧
    other.difficulty = metadata.difficulty ∧ (other.preHash = metadata.preHash ∨
      Collides sha3 ⟨other.difficulty, other.preHash, nonce⟩
        ⟨metadata.difficulty, metadata.preHash, nonce⟩)

structure Safe (sha3 : List Byte → H256) (handle : MiningHandle σ) (events : List Event)
    (w : Worker σ) : Prop where
  nonce : w.nonce.toNat < nonceCount
  mining : ∀ metadata, w.round = .mining metadata → metadata ∈ offered events
  /-- While a seal is submitted the search has started over. -/
  submitting : ∀ metadata rawSeal, w.round = .submitting metadata rawSeal →
    metadata ∈ offered events ∧ w.nonce = 0 ∧ ∃ nonce, Found sha3 metadata nonce rawSeal
  /-- The builds used up and the one at hand were offered one by one, in this order. -/
  builds : (w.accepted.map Prod.fst ++ (handle.metadata w.shared).toList).Sublist (offered events)
  accepted : ∀ p ∈ w.accepted, UsesUp sha3 events p.1 p.2

section Safety

variable {sha3 : List Byte → H256} {handle : MiningHandle σ} {imports : σ → RawSeal → Prop}
  {w w' : Worker σ} {events : List Event}

theorem zero_lt_nonceCount : (0 : U256).toNat < nonceCount := by
  show 0 < 2 ^ 256 - 1
  norm_num

theorem safe_start (hdoc : Documented sha3 handle imports) :
    Safe sha3 handle [] (start handle) where
  nonce := zero_lt_nonceCount
  mining metadata h := by cases h
  submitting metadata rawSeal h := by cases h
  builds := by
    show ([] ++ (handle.metadata handle.start).toList).Sublist []
    rw [hdoc.starts]
    exact List.Sublist.refl []
  accepted p hp := by cases hp

theorem UsesUp.mono {metadata : Metadata} {rawSeal : RawSeal}
    (h : UsesUp sha3 events metadata rawSeal) (e : Event) :
    UsesUp sha3 (events ++ [e]) metadata rawSeal where
  solves := h.solves
  found := by
    obtain ⟨other, hother, hrest⟩ := h.found
    refine ⟨other, ?_, hrest⟩
    rw [offered_concat]
    exact List.mem_append_left _ hother

/-- What the thread knows outlasts every event. -/
theorem Safe.extend (h : Safe sha3 handle events w) (e : Event) :
    (∀ metadata, w.round = .mining metadata → metadata ∈ offered (events ++ [e])) ∧
      (∀ metadata rawSeal, w.round = .submitting metadata rawSeal →
        metadata ∈ offered (events ++ [e]) ∧ w.nonce = 0 ∧
          ∃ nonce, Found sha3 metadata nonce rawSeal) ∧
      ∀ p ∈ w.accepted, UsesUp sha3 (events ++ [e]) p.1 p.2 := by
  have hsub : ∀ metadata, metadata ∈ offered events → metadata ∈ offered (events ++ [e]) := by
    intro metadata hmem
    rw [offered_concat]
    exact List.mem_append_left _ hmem
  refine ⟨fun metadata hround => hsub _ (h.mining metadata hround),
    fun metadata rawSeal hround => ?_, fun p hp => (h.accepted p hp).mono e⟩
  obtain ⟨hmem, hrest⟩ := h.submitting metadata rawSeal hround
  exact ⟨hsub _ hmem, hrest⟩

/-- An event of the node that leaves the thread alone. -/
theorem Safe.shared (h : Safe sha3 handle events w) {e : Event} {s : σ}
    (hbuilds : (w.accepted.map Prod.fst ++ (handle.metadata s).toList).Sublist
      (offered events ++ e.offered.toList)) :
    Safe sha3 handle (events ++ [e]) { w with shared := s } where
  nonce := h.nonce
  mining := (h.extend e).1
  submitting := (h.extend e).2.1
  builds := by
    rw [offered_concat]
    exact hbuilds
  accepted := (h.extend e).2.2

/-- The builds after an event that offers none and leaves at most the build at hand. -/
theorem Safe.builds_of_le (h : Safe sha3 handle events w) {s : σ}
    (hle : handle.metadata s = none ∨ handle.metadata s = handle.metadata w.shared)
    (more : List Metadata) :
    (w.accepted.map Prod.fst ++ (handle.metadata s).toList).Sublist (offered events ++ more) := by
  refine List.Sublist.trans ?_ (h.builds.trans (List.sublist_append_left _ _))
  cases hle with
  | inl hnone =>
    rw [hnone]
    exact List.Sublist.append (List.Sublist.refl _) (List.nil_sublist _)
  | inr hsame => rw [hsame]

theorem Safe.offer (hdoc : Documented sha3 handle imports) (h : Safe sha3 handle events w)
    (metadata : Metadata) :
    Safe sha3 handle (events ++ [.offer metadata])
      { w with shared := handle.offer w.shared metadata } := by
  refine h.shared ?_
  rw [hdoc.offers]
  exact List.Sublist.append ((List.sublist_append_left _ _).trans h.builds)
    (List.Sublist.refl [metadata])

theorem Safe.read (h : Safe sha3 handle events w) :
    Safe sha3 handle (events ++ [.read])
      { w with round := readRound (handle.metadata w.shared) } where
  nonce := h.nonce
  mining metadata hround := by
    have hbuild := readRound_eq_mining_iff.mp hround
    rw [offered_concat]
    refine List.mem_append_left _ (h.builds.subset (List.mem_append_right _ ?_))
    rw [hbuild]
    exact List.mem_singleton_self metadata
  submitting metadata rawSeal hround := absurd hround readRound_ne_submitting
  builds := by
    rw [offered_concat]
    exact h.builds_of_le (Or.inr rfl) _
  accepted := (h.extend _).2.2

theorem Safe.finish (h : Safe sha3 handle events w) {metadata : Metadata}
    (hround : w.round = .mining metadata) :
    Safe sha3 handle (events ++ [.finish])
      { w with
        nonce := (mineStep sha3 w.nonce (some metadata)).1
        round := finishRound metadata (mineStep sha3 w.nonce (some metadata)).2 } where
  nonce := mineStep_lt h.nonce (some metadata)
  mining other hmining := absurd hmining finishRound_ne_mining
  submitting other rawSeal hsubmitting := by
    obtain ⟨rfl, hfound⟩ := finishRound_eq_submitting_iff.mp hsubmitting
    by_cases hhits : Hits sha3 metadata w.nonce
    · rw [mineStep_hits hhits] at hfound ⊢
      cases hfound
      exact ⟨(h.extend _).1 metadata hround, rfl, w.nonce, h.nonce, hhits, rfl⟩
    · rw [mineStep_fails hhits] at hfound
      cases hfound
  builds := by
    rw [offered_concat]
    exact h.builds_of_le (Or.inr rfl) _
  accepted := (h.extend _).2.2

/-- An accepted seal takes the build at hand, which it solves. -/
theorem settle_of_accepted (hdoc : Documented sha3 handle imports) {rawSeal : RawSeal}
    (haccepted : (handle.submit w.shared rawSeal).2 = true) :
    ∃ metadata, handle.metadata w.shared = some metadata ∧
      verify sha3 metadata.preHash rawSeal metadata.difficulty =
        (.ok true : Except PowError Bool) ∧
      handle.metadata (settle handle w rawSeal).shared = none ∧
      (settle handle w rawSeal).accepted = w.accepted ++ [(metadata, rawSeal)] := by
  obtain ⟨metadata, hbuild, hsolves⟩ := hdoc.validates haccepted
  refine ⟨metadata, hbuild, hsolves, ?_, ?_⟩
  · cases hdoc.takes w.shared rawSeal with
    | inl hgone => exact hgone
    | inr hrefused =>
      rw [haccepted] at hrefused
      cases hrefused.1
  · show (if (handle.submit w.shared rawSeal).2 then _ else _) = _
    rw [if_pos haccepted, hbuild]
    rfl

theorem settle_of_refused {rawSeal : RawSeal}
    (hrefused : (handle.submit w.shared rawSeal).2 = false) :
    (settle handle w rawSeal).accepted = w.accepted := by
  show (if (handle.submit w.shared rawSeal).2 then _ else _) = _
  rw [hrefused]
  exact if_neg Bool.false_ne_true

theorem Safe.settle (hdoc : Documented sha3 handle imports) (h : Safe sha3 handle events w)
    {other : Metadata} {rawSeal : RawSeal} (hround : w.round = .submitting other rawSeal) :
    Safe sha3 handle (events ++ [.settle]) (settle handle w rawSeal) := by
  obtain ⟨hother, _, nonce, hfound⟩ := (h.extend .settle).2.1 other rawSeal hround
  refine ⟨h.nonce, fun _ hidle => (by cases hidle), fun _ _ hidle => (by cases hidle), ?_, ?_⟩
  · rw [offered_concat]
    cases hanswer : (handle.submit w.shared rawSeal).2 with
    | true =>
      obtain ⟨metadata, hbuild, _, hgone, haccepted⟩ := settle_of_accepted hdoc hanswer
      have hbuilds := h.builds
      rw [hbuild] at hbuilds
      rw [haccepted, hgone, List.map_append]
      refine List.Sublist.trans ?_ (List.sublist_append_left _ _)
      simpa using hbuilds
    | false =>
      rw [settle_of_refused hanswer]
      exact h.builds_of_le ((hdoc.takes w.shared rawSeal).imp id And.right) _
  · intro p hp
    cases hanswer : (handle.submit w.shared rawSeal).2 with
    | true =>
      obtain ⟨metadata, _, hsolves, _, haccepted⟩ := settle_of_accepted hdoc hanswer
      rw [haccepted, List.mem_append, List.mem_singleton] at hp
      cases hp with
      | inl hold => exact (h.extend .settle).2.2 p hold
      | inr hlast =>
        rw [hlast]
        exact ⟨hsolves, other, hother, nonce, hfound, hfound.binds hsolves⟩
    | false =>
      rw [settle_of_refused hanswer] at hp
      exact (h.extend .settle).2.2 p hp

theorem Safe.step (hdoc : Documented sha3 handle imports) {e : Event}
    (h : Safe sha3 handle events w) (hstep : w.step sha3 handle e = some w') :
    Safe sha3 handle (events ++ [e]) w' := by
  cases e with
  | offer metadata =>
    cases hstep
    exact h.offer hdoc metadata
  | withdraw =>
    cases hstep
    exact h.shared (h.builds_of_le (Or.inl (hdoc.withdraws _)) _)
  | elapse =>
    cases hstep
    exact h.shared (h.builds_of_le (Or.inr (hdoc.elapses _)) _)
  | read =>
    simp only [Worker.step] at hstep
    split at hstep
    · rw [← Option.some.inj hstep]
      exact h.read
    · cases hstep
  | finish =>
    simp only [Worker.step] at hstep
    split at hstep
    · rename_i metadata hround
      rw [← Option.some.inj hstep]
      exact h.finish hround
    · cases hstep
  | settle =>
    simp only [Worker.step] at hstep
    split at hstep
    · rename_i other rawSeal hround
      rw [← Option.some.inj hstep]
      exact h.settle hdoc hround
    · cases hstep

end Safety

/-- In every interleaving the seals that are accepted use up different offers, in the order of
these, and were found for them.  A seal that is submitted while the build it was found for
is at hand is accepted, if the block is imported with it. -/
theorem worker_safe {sha3 : List Byte → H256} {handle : MiningHandle σ}
    {imports : σ → RawSeal → Prop} (hdoc : Documented sha3 handle imports) {events : List Event}
    {w : Worker σ} (h : run (step sha3 handle) (start handle) events = some w) :
    Safe sha3 handle events w ∧
      ∀ metadata rawSeal, w.round = .submitting metadata rawSeal →
        handle.metadata w.shared = some metadata → imports w.shared rawSeal →
          ∃ w', w.step sha3 handle .settle = some w' ∧
            w'.accepted = w.accepted ++ [(metadata, rawSeal)] ∧
            handle.metadata w'.shared = none ∧ w'.nonce = 0 ∧ w'.round = .idle := by
  have hsafe := run_history (P := Safe sha3 handle)
    (fun _ _ _ _ hsafe hstep => hsafe.step hdoc hstep) (safe_start hdoc) h
  refine ⟨hsafe, fun metadata rawSeal hround hbuild himports => ?_⟩
  obtain ⟨_, hnonce, nonce, hfound⟩ := hsafe.submitting metadata rawSeal hround
  obtain ⟨metadata', hbuild', _, hgone, haccepted⟩ := settle_of_accepted hdoc
    (hdoc.accepts hbuild hfound.verify himports)
  rw [hbuild, Option.some.injEq] at hbuild'
  subst hbuild'
  refine ⟨settle handle w rawSeal, ?_, haccepted, hgone, hnonce, rfl⟩
  simp only [step, hround]

/-- A handle whose blocks are all imported. -/
def buildHandle (sha3 : List Byte → H256) : MiningHandle (Option Metadata) where
  start := none
  metadata build := build
  offer _ metadata := some metadata
  withdraw _ := none
  elapse build := build
  submit build rawSeal :=
    match build with
    | none => (none, false)
    | some metadata =>
      match verify sha3 metadata.preHash rawSeal metadata.difficulty with
      | (.ok true : Except PowError Bool) => (none, true)
      | _ => (some metadata, false)

theorem buildHandle_submit (sha3 : List Byte → H256) (metadata : Metadata) (rawSeal : RawSeal) :
    (verify sha3 metadata.preHash rawSeal metadata.difficulty =
        (.ok true : Except PowError Bool) ∧
      (buildHandle sha3).submit (some metadata) rawSeal = (none, true)) ∨
      (verify sha3 metadata.preHash rawSeal metadata.difficulty ≠
        (.ok true : Except PowError Bool) ∧
      (buildHandle sha3).submit (some metadata) rawSeal = (some metadata, false)) := by
  obtain ⟨answer, hanswer, _⟩ :=
    verify_spec sha3 PowError metadata.preHash metadata.difficulty rawSeal
  unfold buildHandle
  simp only [hanswer]
  cases answer with
  | true => exact Or.inl ⟨rfl, rfl⟩
  | false => exact Or.inr ⟨by simp, rfl⟩

theorem buildHandle_documented (sha3 : List Byte → H256) :
    Documented sha3 (buildHandle sha3) fun _ _ => True where
  starts := rfl
  offers _ _ := rfl
  withdraws _ := rfl
  elapses _ := rfl
  validates {s rawSeal} h := by
    cases s with
    | none => cases h
    | some metadata =>
      cases buildHandle_submit sha3 metadata rawSeal with
      | inl hvalid => exact ⟨metadata, rfl, hvalid.1⟩
      | inr hinvalid =>
        rw [hinvalid.2] at h
        cases h
  takes s rawSeal := by
    cases s with
    | none => exact Or.inl rfl
    | some metadata =>
      cases buildHandle_submit sha3 metadata rawSeal with
      | inl hvalid =>
        rw [hvalid.2]
        exact Or.inl rfl
      | inr hinvalid =>
        rw [hinvalid.2]
        exact Or.inr ⟨rfl, rfl⟩
  accepts {s rawSeal metadata} hbuild hsolves _ := by
    have hs : s = some metadata := hbuild
    rw [hs]
    cases buildHandle_submit sha3 metadata rawSeal with
    | inl hvalid => rw [hvalid.2]
    | inr hinvalid => exact absurd hsolves hinvalid.1

/-- The second build that is offered is used up. -/
theorem worker_safe_blank : ∃ w w', run (step blankDigest (buildHandle blankDigest))
      (start (buildHandle blankDigest))
      [.offer ⟨otherHash, 1⟩, .withdraw, .offer ⟨blankHash, 1⟩, .read, .elapse, .finish] = some w ∧
    w.step blankDigest (buildHandle blankDigest) .settle = some w' ∧
    w'.accepted = [(⟨blankHash, 1⟩, blankSeal.encode)] := by
  have hhits : Hits blankDigest ⟨blankHash, 1⟩ 0 := (solves_compute_iff 0).mp solves_blankSeal
  have hfound : mineStep blankDigest 0 (some ⟨blankHash, 1⟩) = (0, some blankSeal.encode) :=
    mineStep_hits hhits
  have hread : run (step blankDigest (buildHandle blankDigest)) (start (buildHandle blankDigest))
      [.offer ⟨otherHash, 1⟩, .withdraw, .offer ⟨blankHash, 1⟩, .read, .elapse] = some
        { shared := some ⟨blankHash, 1⟩
          nonce := 0
          round := .mining ⟨blankHash, 1⟩
          accepted := [] } := rfl
  have hrun : run (step blankDigest (buildHandle blankDigest)) (start (buildHandle blankDigest))
      ([.offer ⟨otherHash, 1⟩, .withdraw, .offer ⟨blankHash, 1⟩, .read, .elapse] ++ [.finish]) =
        some
          { shared := some ⟨blankHash, 1⟩
            nonce := 0
            round := .submitting ⟨blankHash, 1⟩ blankSeal.encode
            accepted := [] } := by
    rw [run_concat, hread, Option.bind_some]
    simp only [step, hfound, finishRound]
  obtain ⟨w', hstep, haccepted, _⟩ := (worker_safe (buildHandle_documented blankDigest) hrun).2
    ⟨blankHash, 1⟩ blankSeal.encode rfl rfl trivial
  exact ⟨_, w', hrun, hstep, haccepted⟩

end Worker
end Pow
end Crain
