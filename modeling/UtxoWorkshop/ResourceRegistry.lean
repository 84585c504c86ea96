import Mathlib.Data.Finset.Card
import Mathlib.Logic.Function.Basic

/-! A registry of the named resources that its owner has acquired. `live` is what exists outside,
`base` what existed before, and `held` what the registry knows. -/
namespace ResourceRegistry

variable {K R : Type*} [DecidableEq K] [DecidableEq R]

/-- Nothing is leaked, and nothing is held that the owner did not acquire. -/
structure Tracks (base live : Finset R) (held : K → Option R) : Prop where
  exact : ∀ r, r ∈ live ↔ r ∈ base ∨ ∃ k, held k = some r
  apart : ∀ k r, held k = some r → r ∉ base
  distinct : ∀ k k' r, held k = some r → held k' = some r → k = k'

variable {base live live' : Finset R} {held held' : K → Option R} {k : K} {r : R} {ks : Finset K}

omit [DecidableEq K] [DecidableEq R] in
theorem tracks_start (base : Finset R) {held : K → Option R} (h : ∀ k, held k = none) :
    Tracks base base held := by
  constructor
  · simp [h]
  · simp [h]
  · simp [h]

theorem Tracks.acquire (h : Tracks base live held) (hk : held k = none) (hr : r ∉ live) :
    Tracks base (insert r live) (Function.update held k (some r)) := by
  have hother : ∀ k' r', Function.update held k (some r) k' = some r' →
      k' = k ∧ r' = r ∨ k' ≠ k ∧ held k' = some r' := by
    intro k' r' h'
    by_cases hkk : k' = k
    · subst hkk
      rw [Function.update_self] at h'
      exact .inl ⟨rfl, (Option.some.inj h').symm⟩
    · rw [Function.update_of_ne hkk] at h'
      exact .inr ⟨hkk, h'⟩
  have hlive : ∀ k' r', held k' = some r' → r' ∈ live := fun k' r' h' =>
    (h.exact r').mpr (.inr ⟨k', h'⟩)
  constructor
  · intro r'
    rw [Finset.mem_insert, h.exact]
    constructor
    · rintro (rfl | hbase | ⟨k', hk'⟩)
      · exact .inr ⟨k, Function.update_self ..⟩
      · exact .inl hbase
      · refine .inr ⟨k', ?_⟩
        rw [Function.update_of_ne]
        · exact hk'
        · rintro rfl
          rw [hk] at hk'
          cases hk'
    · rintro (hbase | ⟨k', hk'⟩)
      · exact .inr (.inl hbase)
      · rcases hother k' r' hk' with ⟨_, rfl⟩ | ⟨_, hk'⟩
        · exact .inl rfl
        · exact .inr (.inr ⟨k', hk'⟩)
  · intro k' r' hk' hbase
    rcases hother k' r' hk' with ⟨_, rfl⟩ | ⟨_, hk'⟩
    · exact hr ((h.exact r').mpr (.inl hbase))
    · exact h.apart k' r' hk' hbase
  · intro k₁ k₂ r' h₁ h₂
    rcases hother k₁ r' h₁ with ⟨rfl, rfl⟩ | ⟨_, hheld₁⟩
    · rcases hother k₂ r' h₂ with ⟨rfl, _⟩ | ⟨_, hheld₂⟩
      · rfl
      · exact absurd (hlive k₂ r' hheld₂) hr
    · rcases hother k₂ r' h₂ with ⟨_, rfl⟩ | ⟨_, hheld₂⟩
      · exact absurd (hlive k₁ r' hheld₁) hr
      · exact h.distinct k₁ k₂ r' hheld₁ hheld₂

theorem Tracks.release (h : Tracks base live held) (hk : held k = some r) :
    Tracks base (live.erase r) (Function.update held k none) := by
  have hother : ∀ k' r', Function.update held k none k' = some r' ↔ k' ≠ k ∧ held k' = some r' := by
    intro k' r'
    by_cases hkk : k' = k
    · subst hkk
      simp
    · simp [hkk]
  constructor
  · intro r'
    simp only [Finset.mem_erase, h.exact, hother]
    constructor
    · rintro ⟨hne, hbase | ⟨k', hk'⟩⟩
      · exact .inl hbase
      · refine .inr ⟨k', ?_, hk'⟩
        rintro rfl
        exact hne (Option.some.inj (hk'.symm.trans hk))
    · rintro (hbase | ⟨k', hne, hk'⟩)
      · refine ⟨?_, .inl hbase⟩
        rintro rfl
        exact h.apart k r' hk hbase
      · refine ⟨?_, .inr ⟨k', hk'⟩⟩
        rintro rfl
        exact hne (h.distinct k' k r' hk' hk)
  · intro k' r' hk'
    exact h.apart k' r' ((hother k' r').mp hk').2
  · intro k₁ k₂ r' h₁ h₂
    exact h.distinct k₁ k₂ r' ((hother k₁ r').mp h₁).2 ((hother k₂ r').mp h₂).2

omit [DecidableEq K] [DecidableEq R] in
/-- What is live follows from what is held. -/
theorem Tracks.live_eq (h : Tracks base live held) (h' : Tracks base live' held) :
    live = live' := by
  apply Finset.ext
  intro r
  rw [h.exact, h'.exact]

omit [DecidableEq K] [DecidableEq R] in
/-- What a new key holds did not exist while no key held it. -/
theorem Tracks.gained_notMem (h : Tracks base live held) (h' : Tracks base live' held')
    (hnew : ∀ k ∈ ks, held k = none) (hsame : ∀ k ∉ ks, held' k = held k) (hk : k ∈ ks)
    (hr : held' k = some r) : r ∉ live := by
  rw [h.exact]
  rintro (hbase | ⟨k', hk'⟩)
  · exact h'.apart k r hr hbase
  · have hold : k' ∉ ks := by
      intro hmem
      rw [hnew k' hmem] at hk'
      cases hk'
    obtain rfl := h'.distinct k k' r hr ((hsame k' hold).trans hk')
    exact hold hk

omit [DecidableEq K] in
/-- New keys that each hold something have gained one resource each, and no others came. -/
theorem Tracks.gained {now : Finset R} (h : Tracks base live held) (h' : Tracks base now held')
    (hnew : ∀ k ∈ ks, held k = none) (hsame : ∀ k ∉ ks, held' k = held k)
    (hheld : ∀ k ∈ ks, (held' k).isSome) : live ⊆ now ∧ (now \ live).card = ks.card := by
  constructor
  · intro r hr
    rcases (h.exact r).mp hr with hbase | ⟨k, hk⟩
    · exact (h'.exact r).mpr (.inl hbase)
    · have hold : k ∉ ks := by
        intro hmem
        rw [hnew k hmem] at hk
        cases hk
      exact (h'.exact r).mpr (.inr ⟨k, (hsame k hold).trans hk⟩)
  · symm
    apply Finset.card_bij fun k hk => (held' k).get (hheld k hk)
    · intro k hk
      have hr : held' k = some ((held' k).get (hheld k hk)) := (Option.some_get _).symm
      exact Finset.mem_sdiff.mpr
        ⟨(h'.exact _).mpr (.inr ⟨k, hr⟩), h.gained_notMem h' hnew hsame hk hr⟩
    · intro k hk k' hk' heq
      apply h'.distinct k k' _ (Option.some_get _).symm
      rw [heq, Option.some_get]
    · intro r hr
      obtain ⟨hlive, hnot⟩ := Finset.mem_sdiff.mp hr
      rcases (h'.exact r).mp hlive with hbase | ⟨k, hk⟩
      · exact absurd ((h.exact r).mpr (.inl hbase)) hnot
      · have hmem : k ∈ ks := by
          by_contra hold
          rw [hsame k hold] at hk
          exact hnot ((h.exact r).mpr (.inr ⟨k, hk⟩))
        exact ⟨k, hmem, Option.get_of_eq_some _ hk⟩

end ResourceRegistry
