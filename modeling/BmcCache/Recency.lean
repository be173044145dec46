import Mathlib.Data.List.DropRight
import Mathlib.Data.List.Nodup

/-!
# Recency order and the contents of an LRU store

A use of a key moves it to the end of the list of keys used so far.  The end of this list, cut at `n` keys, is what a
store of capacity `n` with least-recently-used eviction holds: `rtake_touch_of_mem` is a hit, `rtake_touch_of_lt` an
insertion while there is room, `rtake_touch_of_full` an insertion that evicts the oldest key.  Stores of all
capacities are thus ends of one list (`rtake_rtake`), and a larger one hits whenever a smaller one does (`hits_mono`).
-/

namespace Recency

open List

section

variable {K : Type*} {l x y : List K} {m n : ℕ}

/-! ### Ends of a list -/

theorem rtake_of_length_le (h : l.length ≤ n) : l.rtake n = l := by
  rw [rtake, Nat.sub_eq_zero_of_le h, drop_zero]

theorem length_rtake (l : List K) (n : ℕ) : (l.rtake n).length = min n l.length := by
  rw [rtake, length_drop]
  omega

theorem rtake_append (h : n ≤ y.length) : (x ++ y).rtake n = y.rtake n := by
  have hsub : x.length + y.length - n = x.length + (y.length - n) := by omega
  rw [rtake, rtake, length_append, hsub, drop_length_add_append]

theorem exists_append_rtake (l : List K) (n : ℕ) :
    ∃ a, l = a ++ l.rtake n ∧ (l.rtake n = l ∨ (l.rtake n).length = n) := by
  refine ⟨l.take (l.length - n), (take_append_drop _ l).symm, ?_⟩
  rcases Nat.le_total l.length n with h | h
  · exact Or.inl (rtake_of_length_le h)
  · right
    rw [length_rtake]
    omega

/-- **Ends of one list are ends of each other.** -/
theorem rtake_rtake (l : List K) (h : m ≤ n) : (l.rtake n).rtake m = l.rtake m := by
  obtain ⟨a, hl, hend⟩ := exists_append_rtake l n
  rcases hend with hend | hend
  · rw [hend]
  · conv_rhs => rw [hl]
    rw [rtake_append (by omega)]

theorem rtake_min_length (l : List K) (n : ℕ) : l.rtake (min n l.length) = l.rtake n := by
  rw [rtake, rtake]
  congr 1
  omega

end

variable {K : Type*} [DecidableEq K] {l : List K} {k : K} {m n : ℕ}

/-! ### One use of a key -/

/-- The recency order after one more use of `k`. -/
def touch (l : List K) (k : K) : List K := l.erase k ++ [k]

theorem nodup_touch (h : l.Nodup) (k : K) : (touch l k).Nodup := by
  rw [touch, nodup_append]
  refine ⟨h.erase k, nodup_singleton k, ?_⟩
  intro a ha b hb hab
  rw [mem_singleton.mp hb] at hab
  exact h.not_mem_erase (hab ▸ ha)

theorem rtake_touch (l : List K) (k : K) (n : ℕ) : (touch l k).rtake (n + 1) = (l.erase k).rtake n ++ [k] :=
  rtake_concat_succ _ _ _

theorem rtake_touch_of_mem (hnodup : l.Nodup) (hk : k ∈ l.rtake (n + 1)) :
    (touch l k).rtake (n + 1) = touch (l.rtake (n + 1)) k := by
  obtain ⟨a, hl, hend⟩ := exists_append_rtake l (n + 1)
  set b := l.rtake (n + 1) with hb
  have hka : k ∉ a := by
    intro hka
    rw [hl] at hnodup
    exact (nodup_append.mp hnodup).2.2 k hka k hk rfl
  have hlen : (b.erase k).length = b.length - 1 := length_erase_of_mem hk
  rw [rtake_touch, touch, hl, erase_append_right _ hka]
  congr 1
  rcases hend with hend | hend
  · have ha : a = [] := by simpa [hend] using hl
    have hle : b.length ≤ n + 1 := by rw [hb, length_rtake]; omega
    rw [ha, nil_append, rtake_of_length_le (by omega)]
  · rw [rtake_append (by omega), rtake_of_length_le (by omega)]

/-- A key that is not held is put at the end; as long as there is room nothing else changes. -/
theorem rtake_touch_of_lt (hk : k ∉ l.rtake (n + 1)) (hlt : (l.rtake (n + 1)).length < n + 1) :
    (touch l k).rtake (n + 1) = l.rtake (n + 1) ++ [k] := by
  have hle : l.length ≤ n := by
    rw [length_rtake] at hlt
    omega
  have hl : l.rtake (n + 1) = l := rtake_of_length_le (by omega)
  rw [hl] at hk ⊢
  rw [rtake_touch, erase_of_not_mem hk, rtake_of_length_le hle]

/-- A key that is not held replaces the oldest one of a full store. -/
theorem rtake_touch_of_full (hk : k ∉ l.rtake (n + 1)) (hfull : (l.rtake (n + 1)).length = n + 1) :
    (touch l k).rtake (n + 1) = (l.rtake (n + 1)).tail ++ [k] := by
  obtain ⟨a, hl, -⟩ := exists_append_rtake l (n + 1)
  set b := l.rtake (n + 1) with hb
  have herase : ∃ a', l.erase k = a' ++ b := by
    by_cases hka : k ∈ a
    · exact ⟨a.erase k, by rw [hl, erase_append_left _ hka]⟩
    · exact ⟨a, by rw [hl, erase_append_right _ hka, erase_of_not_mem hk]⟩
  obtain ⟨a', ha'⟩ := herase
  rw [rtake_touch, ha', rtake_append (by omega), rtake, hfull, Nat.add_sub_cancel_left, drop_one]

/-! ### Hits of a run -/

/-- How many keys of `t` are among the `n` most recent ones when they come up, starting from the order `l`. -/
def hits (n : ℕ) : List K → List K → ℕ
  | _, [] => 0
  | l, k :: t => (if k ∈ l.rtake n then 1 else 0) + hits n (touch l k) t

/-- **A larger store hits at least as often.** -/
theorem hits_mono (h : m ≤ n) (t : List K) : ∀ l : List K, hits m l t ≤ hits n l t := by
  induction t with
  | nil => exact fun _ => le_rfl
  | cons k t ih =>
    intro l
    have hmem : k ∈ l.rtake m → k ∈ l.rtake n := by
      rw [← rtake_rtake l h]
      exact fun hk => mem_of_mem_drop hk
    have hrest := ih (touch l k)
    simp only [hits]
    split <;> split <;> first | omega | exact absurd (hmem ‹_›) ‹_›

end Recency
