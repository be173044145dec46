import Mathlib.Data.Finset.Basic
import Mathlib.Data.List.Perm.Basic

/-!
# A set split over lists

A family of lists splits a set if every element of the set is on exactly one of the lists, once, and the lists hold
nothing else.

* `Splits.add`, `Splits.remove` — one list gains or loses an element, at any place;
* `Splits.congr` — only the lists of the family matter.
-/

namespace ListPartition

variable {ι α : Type*}

/-- Every element of `L` is on exactly one of the lists `f i` with `i` in `I`, once. -/
structure Splits (I : Set ι) (f : ι → List α) (L : Finset α) : Prop where
  nodup : ∀ i ∈ I, (f i).Nodup
  disjoint : ∀ i ∈ I, ∀ j ∈ I, i ≠ j → ∀ a ∈ f i, a ∉ f j
  mem_iff : ∀ a, a ∈ L ↔ ∃ i ∈ I, a ∈ f i

variable {I : Set ι} {f g : ι → List α} {L : Finset α}

theorem Splits.congr (h : Splits I f L) (hg : ∀ i ∈ I, g i = f i) : Splits I g L := by
  refine ⟨fun i hi => ?_, fun i hi j hj hij => ?_, fun a => ?_⟩
  · rw [hg i hi]
    exact h.nodup i hi
  · rw [hg i hi, hg j hj]
    exact h.disjoint i hi j hj hij
  · rw [h.mem_iff]
    refine exists_congr fun i => and_congr_right fun hi => ?_
    rw [hg i hi]

theorem Splits.mem (h : Splits I f L) {i : ι} (hi : i ∈ I) {a : α} (ha : a ∈ f i) : a ∈ L :=
  (h.mem_iff a).mpr ⟨i, hi, ha⟩

theorem Splits.unique (h : Splits I f L) {i j : ι} (hi : i ∈ I) (hj : j ∈ I) {a : α} (hai : a ∈ f i)
    (haj : a ∈ f j) :
    i = j := by
  by_contra hij
  exact h.disjoint i hi j hj hij a hai haj

theorem Splits.add [DecidableEq α] (h : Splits I f L) {k : ι} (hk : k ∈ I) {a : α} (ha : a ∉ L)
    (hgk : (g k).Perm (a :: f k)) (hg : ∀ i ∈ I, i ≠ k → g i = f i) : Splits I g (insert a L) := by
  have hnot : ∀ i ∈ I, a ∉ f i := fun i hi hmem => ha (h.mem hi hmem)
  have hmem : ∀ i ∈ I, ∀ b, b ∈ g i ↔ b ∈ f i ∨ (b = a ∧ i = k) := by
    intro i hi b
    by_cases hik : i = k
    · subst hik
      rw [hgk.mem_iff, List.mem_cons]
      tauto
    · rw [hg i hi hik]
      tauto
  refine ⟨fun i hi => ?_, fun i hi j hj hij b hb hbj => ?_, fun b => ?_⟩
  · by_cases hik : i = k
    · subst hik
      exact hgk.nodup_iff.mpr (List.nodup_cons.mpr ⟨hnot i hi, h.nodup i hi⟩)
    · rw [hg i hi hik]
      exact h.nodup i hi
  · rcases (hmem i hi b).mp hb with hb | ⟨rfl, rfl⟩ <;> rcases (hmem j hj _).mp hbj with hbj | ⟨hba, hjk⟩
    · exact h.disjoint i hi j hj hij b hb hbj
    · subst hba
      exact hnot i hi hb
    · exact hnot j hj hbj
    · exact hij hjk.symm
  · rw [Finset.mem_insert, h.mem_iff]
    constructor
    · rintro (rfl | ⟨i, hi, hb⟩)
      · exact ⟨k, hk, (hmem k hk b).mpr (.inr ⟨rfl, rfl⟩)⟩
      · exact ⟨i, hi, (hmem i hi b).mpr (.inl hb)⟩
    · rintro ⟨i, hi, hb⟩
      rcases (hmem i hi b).mp hb with hb | ⟨rfl, -⟩
      · exact .inr ⟨i, hi, hb⟩
      · exact .inl rfl

theorem Splits.remove [DecidableEq α] (h : Splits I f L) {k : ι} (hk : k ∈ I) {a : α}
    (hfk : (f k).Perm (a :: g k)) (hg : ∀ i ∈ I, i ≠ k → g i = f i) : Splits I g (L.erase a) := by
  have hak : a ∈ f k := hfk.mem_iff.mpr List.mem_cons_self
  have hnodup := List.nodup_cons.mp (hfk.nodup_iff.mp (h.nodup k hk))
  have hmem : ∀ i ∈ I, ∀ b, b ∈ g i ↔ b ∈ f i ∧ b ≠ a := by
    intro i hi b
    by_cases hik : i = k
    · subst hik
      rw [hfk.mem_iff, List.mem_cons]
      constructor
      · intro hb
        exact ⟨.inr hb, fun hba => hnodup.1 (hba ▸ hb)⟩
      · rintro ⟨hba | hb, hne⟩
        · exact absurd hba hne
        · exact hb
    · rw [hg i hi hik]
      refine ⟨fun hb => ⟨hb, ?_⟩, fun hb => hb.1⟩
      rintro rfl
      exact hik (h.unique hi hk hb hak)
  refine ⟨fun i hi => ?_, fun i hi j hj hij b hb hbj => ?_, fun b => ?_⟩
  · by_cases hik : i = k
    · subst hik
      exact hnodup.2
    · rw [hg i hi hik]
      exact h.nodup i hi
  · exact h.disjoint i hi j hj hij b ((hmem i hi b).mp hb).1 ((hmem j hj b).mp hbj).1
  · rw [Finset.mem_erase, h.mem_iff]
    constructor
    · rintro ⟨hne, i, hi, hb⟩
      exact ⟨i, hi, (hmem i hi b).mpr ⟨hb, hne⟩⟩
    · rintro ⟨i, hi, hb⟩
      obtain ⟨hb, hne⟩ := (hmem i hi b).mp hb
      exact ⟨hne, i, hi, hb⟩

end ListPartition
