import Mathlib.Data.Rat.Defs
import Mathlib.Data.List.Perm.Basic
import Mathlib.Data.List.Count
import Mathlib.Logic.Function.Basic
import Mathlib.Tactic.Push
import BmcCache.Recency

/-!
# The demand-aware admission demo

`threshold_trace_demo.py` compares two admission policies on a request trace: an LRU cache that admits every missed key
(`simulateCacheAll`) and one that admits a key once it was missed `threshold` times (`simulateDemandAware`).

* `cacheAllLoop_spec`: the first loop keeps the last keys of the recency order, so that caches of all capacities
  are ends of one list;
* `demandAwareLoop_coupled`: the second loop is the first one on the trace without the first `threshold - 1`
  occurrences of each key, since a key's counter is its true number of requests until it is admitted and stays at
  or above the threshold from then on;
* `interleaveLoop_nonneg`, `interleaveLoop_neg`: the loop of `build_trace` ends exactly for a non-negative count of
  hot requests.
-/

namespace BmcCache

open Recency Function List

inductive PyError where
  | keyError
  | valueError (message : String)
  | zeroDivisionError
  deriving DecidableEq, Repr

section

variable {K : Type*} [DecidableEq K]

/-! ### The cache -/

/-- `LruCache`: the keys of the ordered dictionary, oldest first. -/
structure LruCache (K : Type*) where
  capacity : ℤ
  items : List K
  nodup : items.Nodup

def LruCache.new (capacity : ℤ) : LruCache K := ⟨capacity, [], nodup_nil⟩

/-- `items.move_to_end(key)` for a key of the dictionary. -/
def LruCache.moveToEnd (c : LruCache K) (key : K) : LruCache K :=
  ⟨c.capacity, touch c.items key, nodup_touch c.nodup key⟩

def LruCache.get (c : LruCache K) (key : K) : Bool × LruCache K :=
  if key ∉ c.items then (false, c) else (true, c.moveToEnd key)

/-- `items.popitem(last=False)`. -/
def LruCache.popOldest (c : LruCache K) : Except PyError (K × LruCache K) :=
  match h : c.items with
  | [] => .error .keyError
  | evicted :: rest => .ok (evicted, ⟨c.capacity, rest, (nodup_cons.mp (h ▸ c.nodup)).2⟩)

/-- `items[key] = True`. -/
def LruCache.insert (c : LruCache K) (key : K) : LruCache K :=
  if h : key ∈ c.items then c
  else ⟨c.capacity, c.items ++ [key], nodup_append.mpr
    ⟨c.nodup, nodup_singleton key, fun _ ha _ hb hab => h (mem_singleton.mp hb ▸ hab ▸ ha)⟩⟩

def LruCache.put (c : LruCache K) (key : K) : Except PyError (Option K × LruCache K) :=
  if key ∈ c.items then .ok (none, c.moveToEnd key)
  else if c.capacity ≤ c.items.length then do
    let (evicted, c) ← c.popOldest
    .ok (some evicted, c.insert key)
  else .ok (none, c.insert key)

theorem LruCache.insert_items {c : LruCache K} {key : K} (h : key ∉ c.items) :
    (c.insert key).items = c.items ++ [key] := by
  rw [LruCache.insert, dif_neg h]

theorem LruCache.insert_capacity (c : LruCache K) (key : K) : (c.insert key).capacity = c.capacity := by
  rw [LruCache.insert]
  split <;> rfl

omit [DecidableEq K] in
theorem LruCache.popOldest_cons {c : LruCache K} {k : K} {rest : List K} (h : c.items = k :: rest) :
    ∃ c' : LruCache K, c.popOldest = .ok (k, c') ∧ c'.capacity = c.capacity ∧ c'.items = rest := by
  unfold LruCache.popOldest
  split
  · rename_i hnil
    rw [hnil] at h
    exact absurd h (cons_ne_nil _ _).symm
  · rename_i evicted rest' hcons
    rw [hcons] at h
    obtain ⟨rfl, rfl⟩ := cons.inj h
    exact ⟨_, rfl, rfl, rfl⟩

theorem LruCache.get_of_mem {c : LruCache K} {key : K} (h : key ∈ c.items) :
    c.get key = (true, c.moveToEnd key) := by
  rw [LruCache.get, if_neg (not_not.mpr h)]

theorem LruCache.get_of_not_mem {c : LruCache K} {key : K} (h : key ∉ c.items) : c.get key = (false, c) := by
  rw [LruCache.get, if_pos h]

/-- **A miss is stored**, in place of the oldest key when the cache is full. -/
theorem LruCache.put_of_not_mem {c : LruCache K} {key : K} (hcap : 1 ≤ c.capacity) (h : key ∉ c.items) :
    ∃ e c', c.put key = .ok (e, c') ∧ c'.capacity = c.capacity ∧
      c'.items = (if c.capacity ≤ c.items.length then c.items.tail else c.items) ++ [key] := by
  unfold LruCache.put
  rw [if_neg h]
  split
  · rename_i hfull
    cases hi : c.items with
    | nil =>
      rw [hi, length_nil] at hfull
      exact absurd hfull (by push_cast; omega)
    | cons k rest =>
      obtain ⟨c', hpop, hc, hitems⟩ := LruCache.popOldest_cons hi
      have hmem : key ∉ c'.items := by
        intro hmem
        rw [hitems] at hmem
        exact h (hi ▸ mem_cons_of_mem k hmem)
      refine ⟨some k, c'.insert key, ?_, ?_, ?_⟩
      · rw [hpop]
        rfl
      · rw [LruCache.insert_capacity, hc]
      · rw [LruCache.insert_items hmem, hitems, tail_cons]
  · exact ⟨none, _, rfl, LruCache.insert_capacity c key, LruCache.insert_items h⟩

/-! ### Admitting every missed key -/

/-- The variables of the loop of `simulate_cache_all`. -/
structure CacheAllState (K : Type*) where
  cache : LruCache K
  hits : ℕ
  admitted : ℕ

def cacheAllStep (s : CacheAllState K) (key : K) : Except PyError (CacheAllState K) :=
  match s.cache.get key with
  | (true, cache) => .ok { s with cache := cache, hits := s.hits + 1 }
  | (false, cache) => do
    let (_, cache) ← cache.put key
    .ok { s with cache := cache, admitted := s.admitted + 1 }

def cacheAllLoop (trace : List K) (cacheCapacity : ℤ) : Except PyError (CacheAllState K) :=
  trace.foldlM cacheAllStep ⟨LruCache.new cacheCapacity, 0, 0⟩

/-- `hits / len(trace)`, without rounding. -/
def hitRate (hits : ℕ) (trace : List K) : Except PyError ℚ :=
  if trace.length = 0 then .error .zeroDivisionError else .ok (hits / trace.length)

/-- The returned dictionary. -/
structure CacheAllResult (K : Type*) where
  hits : ℕ
  hitRate : ℚ
  admitted : ℕ
  finalCache : List K

def simulateCacheAll (trace : List K) (cacheCapacity : ℤ) : Except PyError (CacheAllResult K) := do
  let s ← cacheAllLoop trace cacheCapacity
  match hitRate s.hits trace with
  | .error e => .error e
  | .ok rate => .ok ⟨s.hits, rate, s.admitted, s.cache.items⟩

omit [DecidableEq K] in
theorem hitRate_ok (hits : ℕ) {trace : List K} (h : trace ≠ []) : hitRate hits trace = .ok (hits / trace.length) :=
  if_neg (mt length_eq_zero_iff.mp h)

theorem simulateCacheAll_ok {trace : List K} (htrace : trace ≠ []) {cacheCapacity : ℤ} {s : CacheAllState K}
    (h : cacheAllLoop trace cacheCapacity = .ok s) :
    simulateCacheAll trace cacheCapacity = .ok ⟨s.hits, s.hits / trace.length, s.admitted, s.cache.items⟩ := by
  rw [simulateCacheAll, h]
  show (match hitRate s.hits trace with | .error e => _ | .ok rate => _) = _
  rw [hitRate_ok s.hits htrace]

theorem cacheAllStep_hit {s : CacheAllState K} {key : K} (h : key ∈ s.cache.items) :
    cacheAllStep s key = .ok { s with cache := s.cache.moveToEnd key, hits := s.hits + 1 } := by
  simp only [cacheAllStep, LruCache.get_of_mem h]

theorem cacheAllStep_miss {s : CacheAllState K} {key : K} {e : Option K} {c : LruCache K} (h : key ∉ s.cache.items)
    (hput : s.cache.put key = .ok (e, c)) :
    cacheAllStep s key = .ok { s with cache := c, admitted := s.admitted + 1 } := by
  simp only [cacheAllStep, LruCache.get_of_not_mem h, hput]
  rfl

/-- The cache holds the last keys of the recency order `l`, as many as fit. -/
structure HoldsRecent (s : CacheAllState K) (n : ℕ) (l : List K) : Prop where
  capacity : s.cache.capacity = ((n + 1 : ℕ) : ℤ)
  items : s.cache.items = l.rtake (n + 1)
  nodup : l.Nodup

/-- **One request.**  The recency order moves on, and the request is a hit or an admission. -/
theorem cacheAllStep_spec {s : CacheAllState K} {n : ℕ} {l : List K} (h : HoldsRecent s n l) (key : K) :
    ∃ s', cacheAllStep s key = .ok s' ∧ HoldsRecent s' n (touch l key) ∧
      s'.hits = s.hits + (if key ∈ l.rtake (n + 1) then 1 else 0) ∧
      s'.hits + s'.admitted = s.hits + s.admitted + 1 := by
  by_cases hk : key ∈ s.cache.items
  · refine ⟨_, cacheAllStep_hit hk, ⟨h.capacity, ?_, nodup_touch h.nodup key⟩, ?_, ?_⟩
    · show touch s.cache.items key = _
      rw [h.items] at hk ⊢
      exact (rtake_touch_of_mem h.nodup hk).symm
    · rw [if_pos (h.items ▸ hk)]
    · show s.hits + 1 + s.admitted = _
      omega
  · obtain ⟨e, c, hput, hcap, hitems⟩ :=
      LruCache.put_of_not_mem (by rw [h.capacity]; push_cast; omega : 1 ≤ s.cache.capacity) hk
    refine ⟨_, cacheAllStep_miss hk hput, ⟨hcap.trans h.capacity, ?_, nodup_touch h.nodup key⟩, ?_, ?_⟩
    · show c.items = _
      rw [hitems, h.capacity]
      rw [h.items] at hk ⊢
      have hle : (l.rtake (n + 1)).length ≤ n + 1 := by rw [length_rtake]; omega
      split
      · exact (rtake_touch_of_full hk (by omega)).symm
      · exact (rtake_touch_of_lt hk (by omega)).symm
    · show s.hits = _
      rw [if_neg (h.items ▸ hk), Nat.add_zero]
    · show s.hits + (s.admitted + 1) = _
      omega

/-- **The whole trace**: the cache follows the recency order, and every request is a hit or an admission. -/
theorem cacheAllFold_spec {n : ℕ} (trace : List K) :
    ∀ (s : CacheAllState K) (l : List K), HoldsRecent s n l →
      ∃ s', trace.foldlM cacheAllStep s = .ok s' ∧ HoldsRecent s' n (trace.foldl touch l) ∧
        s'.hits = s.hits + hits (n + 1) l trace ∧ s'.hits + s'.admitted = s.hits + s.admitted + trace.length := by
  induction trace with
  | nil => exact fun s l h => ⟨s, rfl, h, rfl, rfl⟩
  | cons key trace ih =>
    intro s l h
    obtain ⟨s₁, hstep, h₁, hhits₁, hsum₁⟩ := cacheAllStep_spec h key
    obtain ⟨s₂, hrest, h₂, hhits₂, hsum₂⟩ := ih s₁ _ h₁
    refine ⟨s₂, ?_, h₂, ?_, ?_⟩
    · rw [foldlM_cons, hstep]
      exact hrest
    · rw [hhits₂, hhits₁, hits]
      omega
    · rw [hsum₂, hsum₁, length_cons]
      omega

theorem cacheAllLoop_spec (trace : List K) {cacheCapacity : ℤ} (hcap : 1 ≤ cacheCapacity) :
    ∃ s, cacheAllLoop trace cacheCapacity = .ok s ∧
      s.cache.items = (trace.foldl touch []).rtake cacheCapacity.toNat ∧
      s.hits = hits cacheCapacity.toNat [] trace ∧ s.hits + s.admitted = trace.length := by
  obtain ⟨n, rfl⟩ : ∃ n : ℕ, cacheCapacity = ((n + 1 : ℕ) : ℤ) := ⟨cacheCapacity.toNat - 1, by omega⟩
  have h0 : HoldsRecent (⟨LruCache.new ((n + 1 : ℕ) : ℤ), 0, 0⟩ : CacheAllState K) n [] :=
    ⟨rfl, (rtake_nil _).symm, nodup_nil⟩
  obtain ⟨s, hrun, hs, hhits, hsum⟩ := cacheAllFold_spec trace _ _ h0
  rw [Int.toNat_natCast]
  exact ⟨s, hrun, hs.items, by rw [hhits]; exact Nat.zero_add _, by rw [hsum]; exact Nat.zero_add _⟩

/-- **LRU inclusion.**  After every prefix of the trace the smaller cache holds the last keys of the larger one, in the
same order; the larger cache hits at least as often and admits at most as often.  A trace that is not empty gives these
results. -/
theorem cacheAll_inclusion (trace : List K) {a b : ℤ} (ha : 1 ≤ a) (hab : a ≤ b) :
    (∀ front, front <+: trace → ∃ sa sb, cacheAllLoop front a = .ok sa ∧ cacheAllLoop front b = .ok sb ∧
      sa.cache.items = sb.cache.items.rtake (min a.toNat sb.cache.items.length) ∧
      sa.hits ≤ sb.hits ∧ sb.admitted ≤ sa.admitted) ∧
    (trace ≠ [] → ∃ ra rb, simulateCacheAll trace a = .ok ra ∧ simulateCacheAll trace b = .ok rb ∧
      ra.hits ≤ rb.hits ∧ rb.admitted ≤ ra.admitted) := by
  have hle : a.toNat ≤ b.toNat := Int.toNat_le_toNat hab
  have hloops : ∀ front : List K, ∃ sa sb, cacheAllLoop front a = .ok sa ∧ cacheAllLoop front b = .ok sb ∧
      sa.cache.items = sb.cache.items.rtake (min a.toNat sb.cache.items.length) ∧
      sa.hits ≤ sb.hits ∧ sb.admitted ≤ sa.admitted := by
    intro front
    obtain ⟨sa, hra, hia, hha, hsa⟩ := cacheAllLoop_spec front ha
    obtain ⟨sb, hrb, hib, hhb, hsb⟩ := cacheAllLoop_spec front (show 1 ≤ b by omega)
    have hhits : sa.hits ≤ sb.hits := by
      rw [hha, hhb]
      exact hits_mono hle front []
    refine ⟨sa, sb, hra, hrb, ?_, hhits, by omega⟩
    rw [rtake_min_length, hib, rtake_rtake _ hle, hia]
  refine ⟨fun front _ => hloops front, fun htrace => ?_⟩
  obtain ⟨sa, sb, hra, hrb, -, hhits, hadmitted⟩ := hloops trace
  exact ⟨_, _, simulateCacheAll_ok htrace hra, simulateCacheAll_ok htrace hrb, hhits, hadmitted⟩

/-- Three keys through caches of one and two entries. -/
theorem cacheAll_inclusion_one_two :
    (1 : ℤ) ≤ 1 ∧ (1 : ℤ) ≤ 2 ∧ ∃ ra rb, simulateCacheAll [7, 8, 9, 8] 1 = .ok ra ∧
      simulateCacheAll [7, 8, 9, 8] 2 = .ok rb ∧ ra.hits ≤ rb.hits ∧ rb.admitted ≤ ra.admitted :=
  ⟨by decide, by decide, (cacheAll_inclusion [7, 8, 9, 8] (by decide : (1 : ℤ) ≤ 1)
    (by decide : (1 : ℤ) ≤ 2)).2
    (by simp)⟩

/-! ### Admitting on demand -/

/-- The variables of the loop of `simulate_demand_aware`. -/
structure DemandAwareState (K : Type*) where
  cache : LruCache K
  counts : K → ℕ
  hits : ℕ
  admitted : ℕ
  firstAdmittedAt : Option ℕ

def demandAwareStep (threshold : ℤ) (s : DemandAwareState K) (requestNumber : ℕ) (key : K) :
    Except PyError (DemandAwareState K) :=
  match s.cache.get key with
  | (true, cache) => .ok { s with cache := cache, hits := s.hits + 1 }
  | (false, cache) =>
    let counts := update s.counts key (s.counts key + 1)
    let shouldAdmit := decide (threshold ≤ counts key)
    if shouldAdmit then do
      let (_, cache) ← cache.put key
      .ok { s with
        cache := cache
        counts := counts
        admitted := s.admitted + 1
        firstAdmittedAt := some (s.firstAdmittedAt.getD requestNumber) }
    else .ok { s with cache := cache, counts := counts }

def demandAwareLoop (trace : List K) (cacheCapacity threshold : ℤ) : Except PyError (DemandAwareState K) :=
  (trace.zipIdx 1).foldlM (fun s p => demandAwareStep threshold s p.2 p.1)
    ⟨LruCache.new cacheCapacity, fun _ => 0, 0, 0, none⟩

structure DemandAwareResult (K : Type*) where
  hits : ℕ
  hitRate : ℚ
  admitted : ℕ
  firstAdmittedAt : Option ℕ
  finalCache : List K

def simulateDemandAware (trace : List K) (cacheCapacity threshold : ℤ) : Except PyError (DemandAwareResult K) := do
  let s ← demandAwareLoop trace cacheCapacity threshold
  match hitRate s.hits trace with
  | .error e => .error e
  | .ok rate => .ok ⟨s.hits, rate, s.admitted, s.firstAdmittedAt, s.cache.items⟩

theorem simulateDemandAware_ok {trace : List K} (htrace : trace ≠ []) {cacheCapacity threshold : ℤ}
    {s : DemandAwareState K} (h : demandAwareLoop trace cacheCapacity threshold = .ok s) :
    simulateDemandAware trace cacheCapacity threshold =
      .ok ⟨s.hits, s.hits / trace.length, s.admitted, s.firstAdmittedAt, s.cache.items⟩ := by
  rw [simulateDemandAware, h]
  show (match hitRate s.hits trace with | .error e => _ | .ok rate => _) = _
  rw [hitRate_ok s.hits htrace]

theorem demandAwareStep_hit (threshold : ℤ) {s : DemandAwareState K} (requestNumber : ℕ) {key : K}
    (h : key ∈ s.cache.items) :
    demandAwareStep threshold s requestNumber key =
      .ok { s with cache := s.cache.moveToEnd key, hits := s.hits + 1 } := by
  simp only [demandAwareStep, LruCache.get_of_mem h]

theorem demandAwareStep_miss {threshold : ℤ} {s : DemandAwareState K} (requestNumber : ℕ) {key : K}
    (h : key ∉ s.cache.items) (hlow : ((s.counts key + 1 : ℕ) : ℤ) < threshold) :
    demandAwareStep threshold s requestNumber key =
      .ok { s with counts := update s.counts key (s.counts key + 1) } := by
  simp only [demandAwareStep, LruCache.get_of_not_mem h, update_self, decide_eq_true_eq,
    if_neg (Int.not_le.mpr hlow)]

theorem demandAwareStep_admit {threshold : ℤ} {s : DemandAwareState K} (requestNumber : ℕ) {key : K} {e : Option K}
    {c : LruCache K} (h : key ∉ s.cache.items) (hhigh : threshold ≤ ((s.counts key + 1 : ℕ) : ℤ))
    (hput : s.cache.put key = .ok (e, c)) :
    demandAwareStep threshold s requestNumber key =
      .ok { s with
        cache := c
        counts := update s.counts key (s.counts key + 1)
        admitted := s.admitted + 1
        firstAdmittedAt := some (s.firstAdmittedAt.getD requestNumber) } := by
  simp only [demandAwareStep, LruCache.get_of_not_mem h, update_self, decide_eq_true_eq, if_pos hhigh, hput]
  rfl

/-- The trace without the first `n` occurrences of each key. -/
def dropFirst (n : ℤ) (trace : List K) : List K :=
  (trace.zipIdx.filter fun p => decide (n ≤ (trace.take p.2).count p.1)).map Prod.fst

theorem dropFirst_snoc (n : ℤ) (trace : List K) (key : K) :
    dropFirst n (trace ++ [key]) = dropFirst n trace ++ if n ≤ trace.count key then [key] else [] := by
  have hfront : ∀ p ∈ trace.zipIdx, decide (n ≤ ((trace ++ [key]).take p.2).count p.1) =
      decide (n ≤ (trace.take p.2).count p.1) := by
    intro p hp
    have hlt := snd_lt_of_mem_zipIdx hp
    rw [take_append_of_le_length (by omega)]
  rw [dropFirst, zipIdx_append, filter_append, map_append, filter_congr hfront, dropFirst]
  congr 1
  by_cases hn : n ≤ trace.count key <;> simp [hn]

/-- The miss counters after a trace: a key below the threshold is not held and its counter is its number of requests,
the counter of any other key has reached the threshold. -/
structure Counted (threshold : ℤ) (trace : List K) (counts : K → ℕ) (items : List K) : Prop where
  below : ∀ k, (trace.count k : ℤ) < threshold → counts k = trace.count k ∧ k ∉ items
  above : ∀ k, threshold ≤ trace.count k → threshold ≤ counts k

theorem count_snoc (trace : List K) (key k : K) :
    (trace ++ [key]).count k = trace.count k + if k = key then 1 else 0 := by
  rw [count_append, count_singleton]
  by_cases h : k = key
  · simp [h]
  · simp [h, Ne.symm h]

/-- A hit leaves the counter behind the number of requests, but only above the threshold. -/
theorem Counted.hit {threshold : ℤ} {trace : List K} {counts : K → ℕ} {items items' : List K}
    (h : Counted threshold trace counts items) {key : K} (hkey : key ∈ items) (hsub : ∀ x ∈ items', x ∈ items) :
    Counted threshold (trace ++ [key]) counts items' := by
  have hreached : threshold ≤ trace.count key := by
    by_contra hlt
    exact (h.below key (by omega)).2 hkey
  refine ⟨fun k hk => ?_, fun k hk => ?_⟩
  · rw [count_snoc] at hk ⊢
    have hne : k ≠ key := by
      rintro rfl
      rw [if_pos rfl] at hk
      omega
    rw [if_neg hne, Nat.add_zero] at hk ⊢
    exact ⟨(h.below k hk).1, fun hx => (h.below k hk).2 (hsub k hx)⟩
  · by_cases hne : k = key
    · rw [hne]
      exact h.above key hreached
    · rw [count_snoc, if_neg hne, Nat.add_zero] at hk
      exact h.above k hk

/-- A miss is counted; the key may be held from now on when it has reached the threshold. -/
theorem Counted.miss {threshold : ℤ} {trace : List K} {counts : K → ℕ} {items items' : List K}
    (h : Counted threshold trace counts items) {key : K}
    (hsub : ∀ x ∈ items', x ∈ items ∨ x = key ∧ threshold ≤ ((trace.count key + 1 : ℕ) : ℤ)) :
    Counted threshold (trace ++ [key]) (update counts key (counts key + 1)) items' := by
  refine ⟨fun k hk => ?_, fun k hk => ?_⟩
  · rw [count_snoc] at hk ⊢
    by_cases hne : k = key
    · subst hne
      rw [if_pos rfl] at hk ⊢
      have hlow := h.below k (by omega)
      rw [update_self, hlow.1]
      refine ⟨rfl, fun hx => ?_⟩
      rcases hsub k hx with hx | ⟨-, hx⟩
      · exact hlow.2 hx
      · omega
    · rw [if_neg hne, Nat.add_zero] at hk ⊢
      rw [update_of_ne hne]
      refine ⟨(h.below k hk).1, fun hx => ?_⟩
      rcases hsub k hx with hx | ⟨hx, -⟩
      · exact (h.below k hk).2 hx
      · exact hne hx
  · rw [count_snoc] at hk
    by_cases hne : k = key
    · subst hne
      rw [if_pos rfl] at hk
      rw [update_self]
      rcases Int.lt_or_le (trace.count k) threshold with hlow | hhigh
      · rw [(h.below k hlow).1]
        exact hk
      · have := h.above k hhigh
        omega
    · rw [if_neg hne, Nat.add_zero] at hk
      rw [update_of_ne hne]
      exact h.above k hk

/-- A key is admitted on a miss exactly from its `threshold`-th request on. -/
theorem Counted.admits_iff {threshold : ℤ} {trace : List K} {counts : K → ℕ} {items : List K}
    (h : Counted threshold trace counts items) (key : K) :
    threshold ≤ ((counts key + 1 : ℕ) : ℤ) ↔ threshold - 1 ≤ trace.count key := by
  rcases Int.lt_or_le (trace.count key) threshold with hlow | hhigh
  · rw [(h.below key hlow).1]
    omega
  · have := h.above key hhigh
    omega

omit [DecidableEq K] in
theorem foldlM_singleton {σ : Type*} (f : σ → K → Except PyError σ) (s : σ) (k : K) :
    [k].foldlM f s = f s k := by
  rw [foldlM_cons]
  exact bind_pure (f s k)

structure Coupled (threshold : ℤ) (trace : List K) (d : DemandAwareState K) (c : CacheAllState K) : Prop where
  cache : d.cache = c.cache
  hits : d.hits = c.hits
  admitted : d.admitted = c.admitted
  counted : Counted threshold trace d.counts d.cache.items
  capacity : 1 ≤ d.cache.capacity

/-- **One request of both runs.**  The second run sees the request only if it is kept. -/
theorem Coupled.step {threshold : ℤ} {trace : List K} {d : DemandAwareState K} {c : CacheAllState K}
    (h : Coupled threshold trace d c) (requestNumber : ℕ) (key : K) :
    ∃ d' c', demandAwareStep threshold d requestNumber key = .ok d' ∧
      (if threshold - 1 ≤ trace.count key then [key] else []).foldlM cacheAllStep c = .ok c' ∧
      Coupled threshold (trace ++ [key]) d' c' := by
  by_cases hk : key ∈ d.cache.items
  · -- a held key has reached the threshold, so both runs hit
    have hkept : threshold - 1 ≤ trace.count key := by
      by_contra hlt
      exact (h.counted.below key (by omega)).2 hk
    rw [if_pos hkept, foldlM_singleton]
    refine ⟨_, _, demandAwareStep_hit threshold requestNumber hk, cacheAllStep_hit (h.cache ▸ hk),
      ⟨?_, ?_, h.admitted, ?_, h.capacity⟩⟩
    · show d.cache.moveToEnd key = c.cache.moveToEnd key
      rw [h.cache]
    · show d.hits + 1 = c.hits + 1
      rw [h.hits]
    · refine h.counted.hit hk fun x hx => ?_
      rcases mem_append.mp hx with hx | hx
      · exact mem_of_mem_erase hx
      · exact mem_singleton.mp hx ▸ hk
  · by_cases hkept : threshold - 1 ≤ trace.count key
    · obtain ⟨e, c', hput, hcap, hitems⟩ := LruCache.put_of_not_mem h.capacity hk
      rw [if_pos hkept, foldlM_singleton]
      refine ⟨_, _, demandAwareStep_admit requestNumber hk ((h.counted.admits_iff key).mpr hkept) hput,
        cacheAllStep_miss (h.cache ▸ hk) (h.cache ▸ hput), ⟨rfl, h.hits, ?_, ?_, hcap ▸ h.capacity⟩⟩
      · show d.admitted + 1 = c.admitted + 1
        rw [h.admitted]
      · refine h.counted.miss fun x hx => ?_
        have hx' : x ∈ (if d.cache.capacity ≤ d.cache.items.length then d.cache.items.tail else d.cache.items) ++
            [key] := hitems ▸ hx
        rcases mem_append.mp hx' with hx' | hx'
        · left
          split at hx'
          · exact mem_of_mem_tail hx'
          · exact hx'
        · exact Or.inr ⟨mem_singleton.mp hx', by omega⟩
    · have hlow : ((d.counts key + 1 : ℕ) : ℤ) < threshold :=
        Int.not_le.mp (mt (h.counted.admits_iff key).mp hkept)
      refine ⟨_, c, demandAwareStep_miss requestNumber hk hlow, ?_,
        ⟨h.cache, h.hits, h.admitted, ?_, h.capacity⟩⟩
      · rw [if_neg hkept]
        rfl
      · exact h.counted.miss fun x hx => Or.inl hx

/-- **Both runs**, by induction on the trace from its front. -/
theorem demandAwareLoop_coupled {cacheCapacity : ℤ} (hcap : 1 ≤ cacheCapacity) (threshold : ℤ) (trace : List K) :
    ∃ d c, demandAwareLoop trace cacheCapacity threshold = .ok d ∧
      cacheAllLoop (dropFirst (threshold - 1) trace) cacheCapacity = .ok c ∧ Coupled threshold trace d c := by
  induction trace using reverseRecOn with
  | nil =>
    refine ⟨_, _, rfl, rfl, rfl, rfl, rfl, ⟨fun k _ => ⟨rfl, not_mem_nil⟩, fun k hk => hk⟩, hcap⟩
  | append_singleton trace key ih =>
    obtain ⟨d, c, hd, hc, h⟩ := ih
    obtain ⟨d', c', hd', hc', h'⟩ := h.step (1 + trace.length) key
    refine ⟨d', c', ?_, ?_, h'⟩
    · rw [demandAwareLoop, zipIdx_append, foldlM_append]
      rw [demandAwareLoop] at hd
      rw [hd, zipIdx_singleton]
      show [(key, 1 + trace.length)].foldlM (fun s p => demandAwareStep threshold s p.2 p.1) d = _
      rw [foldlM_singleton]
      exact hd'
    · rw [cacheAllLoop] at hc
      rw [cacheAllLoop, dropFirst_snoc, foldlM_append, hc]
      exact hc'

/-- **Demand-aware admission is LRU on the filtered trace**, unless nothing is left of it: then `simulate_cache_all`
divides by zero. -/
theorem simulateDemandAware_eq_filtered (trace : List K) {cacheCapacity : ℤ} (hcap : 1 ≤ cacheCapacity)
    (threshold : ℤ) :
    (dropFirst (threshold - 1) trace ≠ [] → ∃ r r', simulateDemandAware trace cacheCapacity threshold = .ok r ∧
      simulateCacheAll (dropFirst (threshold - 1) trace) cacheCapacity = .ok r' ∧
      r.hits = r'.hits ∧ r.admitted = r'.admitted ∧ r.finalCache = r'.finalCache) ∧
    (dropFirst (threshold - 1) trace = [] →
      simulateCacheAll (dropFirst (threshold - 1) trace) cacheCapacity = .error .zeroDivisionError) := by
  refine ⟨fun hkept => ?_, fun hempty => by rw [hempty]; rfl⟩
  obtain ⟨d, c, hd, hc, h⟩ := demandAwareLoop_coupled hcap threshold trace
  have htrace : trace ≠ [] := by
    rintro rfl
    exact hkept rfl
  exact ⟨_, _, simulateDemandAware_ok htrace hd, simulateCacheAll_ok hkept hc, h.hits, h.admitted,
    congrArg LruCache.items h.cache⟩

/-- With threshold 2 the first request of each key is dropped; the capacity of one makes the runs evict. -/
theorem simulateDemandAware_eq_filtered_two :
    (1 : ℤ) ≤ 1 ∧ dropFirst (2 - 1) [7, 8, 7, 8, 8] = [7, 8, 8] ∧
      ∃ r r', simulateDemandAware [7, 8, 7, 8, 8] 1 2 = .ok r ∧ simulateCacheAll [7, 8, 8] 1 = .ok r' ∧
        r.hits = r'.hits ∧ r.admitted = r'.admitted ∧ r.finalCache = r'.finalCache :=
  ⟨by decide, by decide, (simulateDemandAware_eq_filtered [7, 8, 7, 8, 8] (by decide) 2).1 (by decide)⟩

/-- One request and threshold 2: the demand-aware run returns, the other one has nothing to divide by. -/
theorem simulateDemandAware_empty_filtered :
    (simulateDemandAware [7] 1 2).map (fun r => (r.hits, r.admitted, r.finalCache)) = .ok (0, 0, []) ∧
      simulateCacheAll (dropFirst (2 - 1) [7]) 1 = .error .zeroDivisionError := by
  exact ⟨rfl, rfl⟩

end

/-! ### Building the trace -/

def coldName (i : ℕ) : String := "cold_" ++ toString i

/-- One of the two tests of `cold_left` in the body of the loop, on `trace`, `cold_index` and `cold_left`. -/
def appendCold : List String × ℕ × ℤ → List String × ℕ × ℤ
  | (trace, coldIndex, coldLeft) =>
    if coldLeft ≠ 0 then (trace ++ [coldName coldIndex], coldIndex + 1, coldLeft - 1)
    else (trace, coldIndex, coldLeft)

/-- The test of `hot_left`, on `trace` and `hot_left`. -/
def appendHot (repeatedKey : String) : List String × ℤ → List String × ℤ
  | (trace, hotLeft) => if hotLeft ≠ 0 then (trace ++ [repeatedKey], hotLeft - 1) else (trace, hotLeft)

/-- `while hot_left or cold_left`, for at most `fuel` tests of the condition; `none` where it goes on. -/
def interleaveLoop (repeatedKey : String) : ℕ → List String → ℕ → ℤ → ℤ → Option (List String)
  | 0, _, _, _, _ => none
  | fuel + 1, trace, coldIndex, hotLeft, coldLeft =>
    if hotLeft ≠ 0 ∨ coldLeft ≠ 0 then
      let (trace, hotLeft) := appendHot repeatedKey (trace, hotLeft)
      let (trace, coldIndex, coldLeft) := appendCold (appendCold (trace, coldIndex, coldLeft))
      interleaveLoop repeatedKey fuel trace coldIndex hotLeft coldLeft
    else some trace

def buildTrace (fuel : ℕ) (totalRequests : ℤ) (repeatedKey : String) (repeatedCount : ℤ) (interleave : Bool) :
    Option (Except PyError (List String)) :=
  if totalRequests < repeatedCount then
    some (.error (.valueError "repeated_count cannot exceed total_requests"))
  else if interleave then
    (interleaveLoop repeatedKey fuel [] 0 repeatedCount (totalRequests - repeatedCount)).map .ok
  else
    some (.ok ((range repeatedCount.toNat).map (fun _ => repeatedKey) ++
      (range (totalRequests - repeatedCount).toNat).map coldName))

inductive TraceRequest where
  | hot
  | cold (i : ℕ)
  deriving DecidableEq, Repr

def TraceRequest.key (repeatedKey : String) : TraceRequest → String
  | .hot => repeatedKey
  | .cold i => coldName i

def TraceRequest.coldIndex : TraceRequest → Option ℕ
  | .hot => none
  | .cold i => some i

/-- Requests of which `h` are hot and whose cold ones are numbered from `i` up to before `i + c`. -/
structure Mixes (h i c : ℕ) (rs : List TraceRequest) : Prop where
  hot : rs.count .hot = h
  cold : rs.filterMap TraceRequest.coldIndex = range' i c

theorem Mixes.append {h i c h' c' : ℕ} {rs rs' : List TraceRequest} (hrs : Mixes h i c rs)
    (hrs' : Mixes h' (i + c) c' rs') : Mixes (h + h') i (c + c') (rs ++ rs') := by
  refine ⟨?_, ?_⟩
  · rw [count_append, hrs.hot, hrs'.hot]
  · rw [filterMap_append, hrs.cold, hrs'.cold, range'_append_1]

def hotThenCold (h i c : ℕ) : List TraceRequest := replicate h .hot ++ (range' i c).map .cold

theorem mixes_hotThenCold (h i c : ℕ) : Mixes h i c (hotThenCold h i c) := by
  refine ⟨?_, ?_⟩
  · have hcold : ((range' i c).map TraceRequest.cold).count .hot = 0 := by
      rw [count_eq_zero]
      simp
    rw [hotThenCold, count_append, hcold, count_replicate_self, Nat.add_zero]
  · have hhot : (replicate h TraceRequest.hot).filterMap TraceRequest.coldIndex = [] := by
      rw [filterMap_eq_nil_iff]
      intro r hr
      rw [eq_of_mem_replicate hr]
      rfl
    rw [hotThenCold, filterMap_append, hhot, filterMap_map]
    exact filterMap_some

theorem Mixes.perm {h i c : ℕ} {rs : List TraceRequest} (hrs : Mixes h i c rs) : rs.Perm (hotThenCold h i c) := by
  obtain ⟨rfl, hcold⟩ := hrs
  rw [hotThenCold, ← hcold]
  clear hcold
  induction rs with
  | nil => rfl
  | cons r rs ih =>
    cases r with
    | hot =>
      rw [count_cons_self, filterMap_cons_none rfl, replicate_succ]
      exact ih.cons _
    | cold j =>
      have hsome : TraceRequest.coldIndex (.cold j) = some j := rfl
      rw [count_cons_of_ne (by simp), filterMap_cons_some hsome, map_cons]
      exact (ih.cons _).trans perm_middle.symm

theorem Mixes.length {h i c : ℕ} {rs : List TraceRequest} (hrs : Mixes h i c rs) : rs.length = h + c := by
  rw [hrs.perm.length_eq, hotThenCold, length_append, length_replicate, length_map, length_range']

/-- One pass of the body with non-negative counts: at most one hot and two cold requests. -/
theorem interleaveBody (repeatedKey : String) (trace : List String) (i h c : ℕ) :
    appendHot repeatedKey (trace, (h : ℤ)) = (trace ++ replicate (min 1 h) repeatedKey, ((h - 1 : ℕ) : ℤ)) ∧
    appendCold (appendCold (trace, i, (c : ℤ))) =
      (trace ++ (range' i (min 2 c)).map coldName, i + min 2 c, ((c - 2 : ℕ) : ℤ)) := by
  constructor
  · rcases h with - | h
    · simp [appendHot]
    · simp [appendHot]
      omega
  · rcases c with - | - | c
    · simp [appendCold]
    · simp [appendCold]
    · have h1 : ((c + 1 + 1 : ℕ) : ℤ) ≠ 0 := by omega
      have h2 : ((c + 1 + 1 : ℕ) : ℤ) - 1 ≠ 0 := by omega
      have hmin : min 2 (c + 1 + 1) = 2 := by omega
      have hsub : ((c + 1 + 1 : ℕ) : ℤ) - 1 - 1 = ((c + 1 + 1 - 2 : ℕ) : ℤ) := by omega
      simp only [appendCold, if_pos h1, if_pos h2, hmin, hsub]
      simp [range'_succ]

/-- The loop with non-negative counts: one pass of the body, or the end. -/
theorem interleaveLoop_succ (repeatedKey : String) (fuel : ℕ) (trace : List String) (i h c : ℕ) :
    interleaveLoop repeatedKey (fuel + 1) trace i h c =
      if h + c = 0 then some trace
      else interleaveLoop repeatedKey fuel
        (trace ++ (hotThenCold (min 1 h) i (min 2 c)).map (TraceRequest.key repeatedKey)) (i + min 2 c)
        ((h - 1 : ℕ) : ℤ) ((c - 2 : ℕ) : ℤ) := by
  obtain ⟨hhot, -⟩ := interleaveBody repeatedKey trace i h c
  obtain ⟨-, hcold⟩ := interleaveBody repeatedKey (trace ++ replicate (min 1 h) repeatedKey) i h c
  have hcond : ((h : ℤ) ≠ 0 ∨ (c : ℤ) ≠ 0) ↔ ¬ h + c = 0 := by omega
  rw [interleaveLoop]
  simp only [hcond, hhot, hcold, ite_not]
  have hkeys : (hotThenCold (min 1 h) i (min 2 c)).map (TraceRequest.key repeatedKey) =
      replicate (min 1 h) repeatedKey ++ (range' i (min 2 c)).map coldName := by
    rw [hotThenCold, map_append, map_replicate, map_map]
    rfl
  rw [hkeys, append_assoc]

/-- **What the loop builds**, by induction on the passes. -/
theorem interleaveLoop_mixes (repeatedKey : String) (fuel : ℕ) :
    ∀ (trace t : List String) (i h c : ℕ), interleaveLoop repeatedKey fuel trace i h c = some t →
      ∃ rs, t = trace ++ rs.map (TraceRequest.key repeatedKey) ∧ Mixes h i c rs := by
  induction fuel with
  | zero => exact fun trace t i h c ht => absurd ht (by simp [interleaveLoop])
  | succ fuel ih =>
    intro trace t i h c ht
    rw [interleaveLoop_succ] at ht
    split at ht
    · rename_i hzero
      obtain ⟨rfl, rfl⟩ : h = 0 ∧ c = 0 := by omega
      exact ⟨[], by simpa using (Option.some.inj ht).symm, ⟨rfl, rfl⟩⟩
    · obtain ⟨rs, rfl, hrs⟩ := ih _ _ _ _ _ ht
      refine ⟨hotThenCold (min 1 h) i (min 2 c) ++ rs, by rw [map_append, append_assoc], ?_⟩
      have hmix := (mixes_hotThenCold (min 1 h) i (min 2 c)).append hrs
      have hh : min 1 h + (h - 1) = h := by omega
      have hc : min 2 c + (c - 2) = c := by omega
      rwa [hh, hc] at hmix

/-- With non-negative counts every pass lowers one of them, so that the loop ends. -/
theorem interleaveLoop_nonneg (repeatedKey : String) (fuel : ℕ) :
    ∀ (trace : List String) (i h c : ℕ), h + c < fuel →
      ∃ t, interleaveLoop repeatedKey fuel trace i h c = some t := by
  induction fuel with
  | zero => exact fun trace i h c hlt => absurd hlt (Nat.not_lt_zero _)
  | succ fuel ih =>
    intro trace i h c hlt
    rw [interleaveLoop_succ]
    split
    · exact ⟨_, rfl⟩
    · exact ih _ _ _ _ (by omega)

/-- A negative count of hot requests is lowered in every pass and never reaches zero. -/
theorem interleaveLoop_neg (repeatedKey : String) (fuel : ℕ) :
    ∀ (trace : List String) (i : ℕ) (h c : ℤ), h < 0 → interleaveLoop repeatedKey fuel trace i h c = none := by
  induction fuel with
  | zero => exact fun _ _ _ _ _ => rfl
  | succ fuel ih =>
    intro trace i h c hneg
    have hne : h ≠ 0 := by omega
    rw [interleaveLoop, if_pos (Or.inl hne)]
    simp only [appendHot, if_pos hne]
    exact ih _ _ _ _ (by omega)

/-! ### The requested trace -/

structure IsRequested (totalRequests repeatedCount : ℤ) (rs : List TraceRequest) : Prop where
  length : (rs.length : ℤ) = max totalRequests 0
  hot : (rs.count .hot : ℤ) = repeatedCount
  cold : rs.filterMap TraceRequest.coldIndex = range (rs.filterMap TraceRequest.coldIndex).length

/-- `build_trace` raises `ValueError`, or ends with the requested trace. -/
def BuildsRequested (totalRequests : ℤ) (repeatedKey : String) (repeatedCount : ℤ) (interleave : Bool) : Prop :=
  (∃ fuel message, buildTrace fuel totalRequests repeatedKey repeatedCount interleave =
      some (.error (.valueError message))) ∨
    ∃ fuel rs, buildTrace fuel totalRequests repeatedKey repeatedCount interleave =
      some (.ok (rs.map (TraceRequest.key repeatedKey))) ∧ IsRequested totalRequests repeatedCount rs

def ModesPermuted (totalRequests : ℤ) (repeatedKey : String) (repeatedCount : ℤ) : Prop :=
  ∀ fuel fuel' t t', buildTrace fuel totalRequests repeatedKey repeatedCount true = some (.ok t) →
    buildTrace fuel' totalRequests repeatedKey repeatedCount false = some (.ok t') → t.Perm t'

theorem Mixes.isRequested {h c : ℕ} {rs : List TraceRequest} (hrs : Mixes h 0 c rs) :
    IsRequested ((h + c : ℕ) : ℤ) h rs := by
  refine ⟨?_, ?_, ?_⟩
  · rw [hrs.length]
    omega
  · rw [hrs.hot]
  · rw [hrs.cold, length_range', range_eq_range']

theorem buildTrace_plain (fuel h c : ℕ) (repeatedKey : String) :
    buildTrace fuel ((h + c : ℕ) : ℤ) repeatedKey h false =
      some (.ok ((hotThenCold h 0 c).map (TraceRequest.key repeatedKey))) := by
  have hle : ¬ ((h + c : ℕ) : ℤ) < h := by omega
  have hsub : (((h + c : ℕ) : ℤ) - h).toNat = c := by omega
  rw [buildTrace, if_neg hle, if_neg Bool.false_ne_true, hsub, Int.toNat_natCast, hotThenCold, map_append,
    map_replicate, map_map, range_eq_range', map_const', length_range', range_eq_range']
  rfl

theorem buildTrace_interleaved (fuel h c : ℕ) (repeatedKey : String) :
    buildTrace fuel ((h + c : ℕ) : ℤ) repeatedKey h true = (interleaveLoop repeatedKey fuel [] 0 h c).map .ok := by
  have hle : ¬ ((h + c : ℕ) : ℤ) < h := by omega
  have hsub : ((h + c : ℕ) : ℤ) - h = c := by omega
  rw [buildTrace, if_neg hle, if_pos rfl, hsub]

/-- **The trace is built exactly when the count of hot requests is not negative**, unless the arguments are refused:
with a negative count the interleaving loop never ends, and the other mode makes up for it with cold requests. -/
theorem buildsRequested_iff (totalRequests : ℤ) (repeatedKey : String) (repeatedCount : ℤ) (interleave : Bool) :
    BuildsRequested totalRequests repeatedKey repeatedCount interleave ∧
        ModesPermuted totalRequests repeatedKey repeatedCount ↔
      totalRequests < repeatedCount ∨ 0 ≤ repeatedCount := by
  rcases Int.lt_or_le totalRequests repeatedCount with hlt | hle
  · have hraise : ∀ fuel mode, buildTrace fuel totalRequests repeatedKey repeatedCount mode =
        some (.error (.valueError "repeated_count cannot exceed total_requests")) := by
      intro fuel mode
      rw [buildTrace, if_pos hlt]
    refine iff_of_true ⟨Or.inl ⟨0, _, hraise 0 _⟩, ?_⟩ (Or.inl hlt)
    intro fuel fuel' t t' ht
    rw [hraise] at ht
    exact absurd ht (by simp)
  · rcases Int.lt_or_le repeatedCount 0 with hneg | hnonneg
    · refine iff_of_false ?_ (by omega)
      rintro ⟨⟨fuel, message, hraise⟩ | ⟨fuel, rs, -, hrs⟩, -⟩
      · rw [buildTrace, if_neg (by omega)] at hraise
        split at hraise
        · rw [interleaveLoop_neg _ _ _ _ _ _ hneg] at hraise
          exact absurd hraise (by simp)
        · exact absurd hraise (by simp)
      · have := hrs.hot
        omega
    · -- from here on the counts are natural numbers
      obtain ⟨h, rfl⟩ : ∃ h : ℕ, repeatedCount = h := ⟨repeatedCount.toNat, by omega⟩
      obtain ⟨c, rfl⟩ : ∃ c : ℕ, totalRequests = ((h + c : ℕ) : ℤ) :=
        ⟨(totalRequests - h).toNat, by omega⟩
      refine iff_of_true ⟨Or.inr ?_, ?_⟩ (Or.inr hnonneg)
      · cases interleave with
        | true =>
          obtain ⟨t, ht⟩ := interleaveLoop_nonneg repeatedKey (h + c + 1) [] 0 h c (Nat.lt_succ_self _)
          obtain ⟨rs, rfl, hrs⟩ := interleaveLoop_mixes _ _ _ _ _ _ _ ht
          refine ⟨h + c + 1, rs, ?_, hrs.isRequested⟩
          rw [buildTrace_interleaved, ht]
          rfl
        | false => exact ⟨0, _, buildTrace_plain 0 h c repeatedKey, (mixes_hotThenCold h 0 c).isRequested⟩
      · intro fuel fuel' t t' ht ht'
        rw [buildTrace_interleaved] at ht
        rw [buildTrace_plain] at ht'
        obtain ⟨t₁, ht₁, hok⟩ := Option.map_eq_some_iff.mp ht
        obtain ⟨rs, rfl, hrs⟩ := interleaveLoop_mixes _ _ _ _ _ _ _ ht₁
        obtain rfl := Except.ok.inj hok
        obtain rfl := Except.ok.inj (Option.some.inj ht')
        exact hrs.perm.map _

/-- One hot request too few: the interleaving loop goes on for ever, and without it a request is made up. -/
theorem buildTrace_negative :
    (∀ fuel, buildTrace fuel 0 "hot_hello" (-1) true = none) ∧
      (∀ fuel, buildTrace fuel 0 "hot_hello" (-1) false = some (.ok ["cold_0"])) ∧
      ¬ BuildsRequested 0 "hot_hello" (-1) true ∧ ¬ BuildsRequested 0 "hot_hello" (-1) false := by
  have hloop : ∀ fuel, buildTrace fuel 0 "hot_hello" (-1) true = none := by
    intro fuel
    rw [buildTrace, if_neg (by decide), if_pos rfl, interleaveLoop_neg _ _ _ _ _ _ (by decide)]
    rfl
  have hplain : ∀ fuel, buildTrace fuel 0 "hot_hello" (-1) false = some (.ok ["cold_0"]) := fun _ => rfl
  have hcount : ∀ rs, ¬ IsRequested 0 (-1) rs := by
    intro rs hrs
    have := hrs.hot
    omega
  refine ⟨hloop, hplain, ?_, ?_⟩
  · rintro (⟨fuel, message, h⟩ | ⟨fuel, rs, -, hrs⟩)
    · rw [hloop] at h
      exact absurd h (by simp)
    · exact hcount rs hrs
  · rintro (⟨fuel, message, h⟩ | ⟨fuel, rs, -, hrs⟩)
    · rw [hplain] at h
      exact absurd h (by simp)
    · exact hcount rs hrs

end BmcCache
