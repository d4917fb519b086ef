/-
Stores whose entries are derived from other entries.

Every item names a parent.  Its entry is derived from the entry stored for the parent,
and is stored under the item's own key unless that key is taken.  A `Lineage` is the
list of items between the root and an entry, oldest first, and says where an entry
comes from without mentioning the store.

A store is `Sound` when each of its entries has a lineage of known items.  When no two known
items share a key an entry has one lineage only (`Lineage.unique`), so two sound stores that
hold every known item are the same (`Sound.agree`).
-/
import Mathlib.Logic.Function.Basic

namespace Machine

structure Derivation (κ β ε : Type) where
  key : β → κ
  parent : β → κ
  derive : ε → β → Option ε

namespace Derivation

variable {κ β ε : Type} (d : Derivation κ β ε) (root : κ) (origin : ε)

/-- The entry at a key is derived along a path of known items. -/
inductive Lineage (known : β → Prop) : List β → κ → ε → Prop where
  | root : Lineage known [] root origin
  | concat {path : List β} {b : β} {above entry : ε} (prev : Lineage known path (d.parent b) above)
      (mem : known b) (ne_root : d.key b ≠ root) (derived : d.derive above b = some entry) :
      Lineage known (path ++ [b]) (d.key b) entry

variable {d root origin}

section Lineage

variable {known known' : β → Prop} {path : List β} {k : κ} {entry : ε}

theorem Lineage.mono (hle : ∀ b, known b → known' b)
    (h : d.Lineage root origin known path k entry) : d.Lineage root origin known' path k entry := by
  induction h with
  | root => exact .root
  | concat _ hmem hne hderived ih => exact .concat ih (hle _ hmem) hne hderived

theorem Lineage.known_of_mem (h : d.Lineage root origin known path k entry) :
    ∀ b ∈ path, known b := by
  induction h with
  | root => simp
  | concat _ hmem _ _ ih =>
    intro b hb
    rw [List.mem_append, List.mem_singleton] at hb
    cases hb with
    | inl hb => exact ih b hb
    | inr hb => rw [hb]; exact hmem

/-- Each item of a path names the one before it as its parent, and the first names the
root. -/
theorem Lineage.links (h : d.Lineage root origin known path k entry) :
    path.map d.parent ++ [k] = root :: path.map d.key := by
  induction h with
  | root => rfl
  | concat _ _ _ _ ih =>
    rw [List.map_append, List.map_append, ← List.cons_append, ← ih]
    rfl

theorem Lineage.of_root (h : d.Lineage root origin known path k entry) (hk : k = root) :
    path = [] ∧ entry = origin := by
  cases h with
  | root => exact ⟨rfl, rfl⟩
  | concat _ _ hne _ => exact absurd hk hne

/-- With distinct keys the last item is determined by its key, the one before by the
parent's, and so on to the root. -/
theorem Lineage.unique (hkey : ∀ b c, known b → known c → d.key b = d.key c → b = c)
    (h : d.Lineage root origin known path k entry) {path' : List β} {entry' : ε}
    (h' : d.Lineage root origin known path' k entry') : path = path' ∧ entry = entry' := by
  induction h generalizing path' entry' with
  | root =>
    obtain ⟨hpath, hentry⟩ := h'.of_root rfl
    exact ⟨hpath.symm, hentry.symm⟩
  | @concat path b above entry _ hmem hne hderived ih =>
    generalize hb : d.key b = k at h'
    cases h' with
    | root => exact absurd hb hne
    | @concat path' c above' _ hprev' hmem' _ hderived' =>
      have hbc : b = c := hkey b c hmem hmem' hb
      subst hbc
      obtain ⟨hpath, habove⟩ := ih hprev'
      subst hpath
      subst habove
      rw [hderived, Option.some.injEq] at hderived'
      exact ⟨rfl, hderived'⟩

end Lineage

/-! ## Where the entries come from -/

variable (d root origin) in
/-- Every entry of the store is derived from the root along known items. -/
def Sound (known : β → Prop) (store : κ → Option ε) : Prop :=
  store root = some origin ∧
    ∀ k entry, store k = some entry → ∃ path, d.Lineage root origin known path k entry

theorem Sound.mono {known known' : β → Prop} {store : κ → Option ε}
    (h : d.Sound root origin known store) (hle : ∀ b, known b → known' b) :
    d.Sound root origin known' store := by
  refine ⟨h.1, fun k entry hk => ?_⟩
  obtain ⟨path, hpath⟩ := h.2 k entry hk
  exact ⟨path, hpath.mono hle⟩

section Agree

variable {known : β → Prop} {store store' : κ → Option ε}

/-- What one sound store holds is in every other that holds the known items. -/
theorem Sound.le (hkey : ∀ b c, known b → known c → d.key b = d.key c → b = c)
    (h : d.Sound root origin known store) (h' : d.Sound root origin known store')
    (hall : ∀ b, known b → (store' (d.key b)).isSome) {k : κ} {entry : ε}
    (hk : store k = some entry) : store' k = some entry := by
  obtain ⟨path, hpath⟩ := h.2 k entry hk
  cases hpath with
  | root => exact h'.1
  | @concat path b above entry hprev hmem hne hderived =>
    obtain ⟨entry', hentry'⟩ := Option.isSome_iff_exists.mp (hall b hmem)
    obtain ⟨path', hpath'⟩ := h'.2 _ _ hentry'
    have hown : d.Lineage root origin known (path ++ [b]) (d.key b) entry :=
      .concat hprev hmem hne hderived
    rw [hentry', (hown.unique hkey hpath').2]

theorem Sound.agree (hkey : ∀ b c, known b → known c → d.key b = d.key c → b = c)
    (h : d.Sound root origin known store) (h' : d.Sound root origin known store')
    (hall : ∀ b, known b → (store (d.key b)).isSome)
    (hall' : ∀ b, known b → (store' (d.key b)).isSome) : store = store' := by
  funext k
  apply Option.ext
  intro entry
  exact ⟨h.le hkey h' hall', h'.le hkey h hall⟩

end Agree

/-! ## Storing -/

variable [DecidableEq κ]

variable (d root origin) in
def initial : κ → Option ε := Function.update (fun _ => none) root (some origin)

@[simp] theorem initial_root : initial root origin root = some origin := Function.update_self _ _ _

theorem initial_of_ne {k : κ} (h : k ≠ root) : initial root origin k = none := by
  rw [initial, Function.update_of_ne h]

theorem eq_of_initial {k : κ} {entry : ε} (h : initial root origin k = some entry) :
    k = root ∧ entry = origin := by
  by_cases hk : k = root
  · rw [hk, initial_root, Option.some.injEq] at h
    exact ⟨hk, h.symm⟩
  · rw [initial_of_ne hk] at h
    cases h

theorem sound_initial (known : β → Prop) : d.Sound root origin known (initial root origin) := by
  refine ⟨initial_root, fun k entry h => ?_⟩
  obtain ⟨hk, hentry⟩ := eq_of_initial h
  rw [hk, hentry]
  exact ⟨[], .root⟩

/-- Storing what was derived from a stored parent keeps the store sound. -/
theorem Sound.update {known : β → Prop} {store : κ → Option ε} (h : d.Sound root origin known store)
    {b : β} (hb : known b) (hfree : store (d.key b) = none) {above entry : ε}
    (habove : store (d.parent b) = some above) (hentry : d.derive above b = some entry) :
    d.Sound root origin known (Function.update store (d.key b) (some entry)) := by
  have hne : d.key b ≠ root := fun heq => by
    rw [heq, h.1] at hfree
    cases hfree
  refine ⟨?_, fun k e hk => ?_⟩
  · rw [Function.update_of_ne (Ne.symm hne)]
    exact h.1
  · by_cases hkb : k = d.key b
    · rw [hkb, Function.update_self, Option.some.injEq] at hk
      obtain ⟨path, hpath⟩ := h.2 _ _ habove
      rw [hkb, ← hk]
      exact ⟨path ++ [b], .concat hpath hb hne hentry⟩
    · rw [Function.update_of_ne hkb] at hk
      exact h.2 k e hk

end Derivation
end Machine
