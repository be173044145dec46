import Mathlib.Data.List.Basic
import Mathlib.Data.List.TakeDrop
import Mathlib.Data.Nat.Digits.Defs
import Mathlib.Tactic.Ring

/-!
# Buffers as lists: blocks read from and written into a fixed-size region

A region of memory is a list of cells.  Two operations are enough for everything that follows:

* `slice l pos n` — the block of `n` cells that starts at `pos`;
* `overwrite l pos src` — the region with `src` stored from `pos` on, its size unchanged.

The lemmas say how blocks compose: a store reads back (`slice_overwrite_self`), leaves the cells behind it alone
(`drop_overwrite`, `overwrite_append_left`), and two adjacent stores are one (`overwrite_overwrite`).
Nothing here knows what the cells mean.

* `loadBlock`, `storeBlock` — the two operations with their bounds checked;
* `blit l pos src` — the same for a region that a store may run beyond: what is beyond is not part of it;
* `leBytes`, `ofLeBytes` — a number in `k` bytes, the lowest first.
-/

namespace ByteBuffer

open List

variable {α : Type*}

/-- The block of `n` cells starting at `pos`. -/
def slice (l : List α) (pos n : ℕ) : List α := (l.drop pos).take n

/-- The region with the block `src` stored from `pos` on. -/
def overwrite (l : List α) (pos : ℕ) (src : List α) : List α :=
  l.take pos ++ src ++ l.drop (pos + src.length)

variable (l : List α) (pos n : ℕ)

theorem slice_length (h : pos + n ≤ l.length) : (slice l pos n).length = n := by
  simp only [slice, length_take, length_drop]
  omega

theorem take_add_slice : l.take (pos + n) = l.take pos ++ slice l pos n := by
  rw [slice, take_add]

variable (src : List α)

theorem overwrite_length (h : pos + src.length ≤ l.length) :
    (overwrite l pos src).length = l.length := by
  simp only [overwrite, length_append, length_take, length_drop]
  omega

theorem overwrite_nil : overwrite l pos [] = l := by
  simp [overwrite]

theorem drop_overwrite (src : List α) (hn : pos + src.length ≤ n)
    (h : pos ≤ l.length) : (overwrite l pos src).drop n = l.drop n := by
  have hlen : (l.take pos ++ src).length = pos + src.length := by
    rw [length_append, length_take, Nat.min_eq_left h]
  rw [overwrite, drop_append, drop_eq_nil_of_le (by omega), nil_append, hlen,
    drop_drop]
  congr 1
  omega

/-- From its own position on, the region is the stored block followed by what was behind it. -/
theorem drop_overwrite_self (h : pos ≤ l.length) :
    (overwrite l pos src).drop pos = src ++ l.drop (pos + src.length) := by
  have hlen : (l.take pos).length = pos := by rw [length_take, Nat.min_eq_left h]
  rw [overwrite, append_assoc, drop_append, drop_eq_nil_of_le (by omega), hlen,
    Nat.sub_self, drop_zero, nil_append]

theorem slice_overwrite_self (h : pos ≤ l.length) : slice (overwrite l pos src) pos src.length = src := by
  rw [slice, drop_overwrite_self l pos src h, take_left]

theorem overwrite_overwrite (src₁ src₂ : List α) (h : pos ≤ l.length) :
    overwrite (overwrite l pos src₁) (pos + src₁.length) src₂ = overwrite l pos (src₁ ++ src₂) := by
  have hlen : (l.take pos ++ src₁).length = pos + src₁.length := by
    rw [length_append, length_take, Nat.min_eq_left h]
  have htake : (overwrite l pos src₁).take (pos + src₁.length) = l.take pos ++ src₁ := by
    rw [overwrite, ← hlen, take_left]
  have hdrop : (overwrite l pos src₁).drop (pos + src₁.length + src₂.length)
      = l.drop (pos + src₁.length + src₂.length) :=
    drop_overwrite l pos _ src₁ (by omega) h
  rw [overwrite.eq_def (overwrite l pos src₁), htake, hdrop, overwrite, length_append]
  simp only [append_assoc, Nat.add_assoc]

/-- Copying on: the part of `src` already stored at the front, extended by its next `n` cells. -/
theorem overwrite_copy_step (off n : ℕ) (hsrc : off ≤ src.length) :
    overwrite (overwrite l 0 (src.take off)) off (slice src off n) = overwrite l 0 (src.take (off + n)) := by
  have hlen : 0 + (src.take off).length = off := by
    rw [length_take, Nat.min_eq_left hsrc, Nat.zero_add]
  have h := overwrite_overwrite l 0 (src.take off) (slice src off n) (Nat.zero_le _)
  rw [hlen, ← take_add_slice] at h
  exact h

theorem slice_append_left (r : List α) (pos n : ℕ) (h : pos + n ≤ l.length) :
    slice (l ++ r) pos n = slice l pos n := by
  rw [slice, slice, drop_append_of_le_length (by omega),
    take_append_of_le_length (by rw [length_drop]; omega)]

theorem overwrite_append_left (r : List α) (pos : ℕ) (src : List α) (h : pos + src.length ≤ l.length) :
    overwrite (l ++ r) pos src = overwrite l pos src ++ r := by
  rw [overwrite, overwrite, take_append_of_le_length (by omega), drop_append_of_le_length h]
  simp only [append_assoc]

/-- Exchange the blocks of `n` cells at `p` and `q` through a temporary. -/
def swapBlocks (l : List α) (p q n : ℕ) : List α :=
  let tmp := slice l p n
  let l := overwrite l p (slice l q n)
  overwrite l q tmp

theorem swapBlocks_length (p q n : ℕ) (hp : p + n ≤ l.length) (hq : q + n ≤ l.length) :
    (swapBlocks l p q n).length = l.length := by
  have h1 : (overwrite l p (slice l q n)).length = l.length :=
    overwrite_length l p _ (by rw [slice_length l q n hq]; exact hp)
  rw [swapBlocks, overwrite_length _ _ _ (by rw [slice_length l p n hp, h1]; exact hq), h1]

theorem swapBlocks_append_left (r : List α) (p q n : ℕ) (hp : p + n ≤ l.length) (hq : q + n ≤ l.length) :
    swapBlocks (l ++ r) p q n = swapBlocks l p q n ++ r := by
  have hsq : (slice l q n).length = n := slice_length l q n hq
  have h1 : (overwrite l p (slice l q n)).length = l.length := overwrite_length l p _ (by rw [hsq]; exact hp)
  simp only [swapBlocks]
  rw [slice_append_left l r p n hp, slice_append_left l r q n hq,
    overwrite_append_left l r p _ (by rw [hsq]; exact hp),
    overwrite_append_left _ r q _ (by rw [slice_length l p n hp, h1]; exact hq)]

theorem set_eq_overwrite (b : α) (h : pos < l.length) : l.set pos b = overwrite l pos [b] := by
  rw [overwrite, set_eq_take_append_cons_drop, if_pos h]
  simp

/-! ### Single cells -/

theorem getElem?_slice (i : ℕ) : (slice l pos n)[i]? = if i < n then l[pos + i]? else none := by
  rw [slice, getElem?_take, getElem?_drop]

theorem getElem?_overwrite (h : pos + src.length ≤ l.length) (i : ℕ) :
    (overwrite l pos src)[i]? = if pos ≤ i ∧ i < pos + src.length then src[i - pos]? else l[i]? := by
  have hfront : (l.take pos).length = pos := by rw [length_take]; omega
  rw [overwrite, append_assoc]
  rcases Nat.lt_or_ge i pos with hi | hi
  · rw [getElem?_append_left (by omega), getElem?_take_of_lt hi, if_neg (by omega)]
  rw [getElem?_append_right (by omega), hfront]
  rcases Nat.lt_or_ge i (pos + src.length) with hi' | hi'
  · rw [getElem?_append_left (by omega), if_pos ⟨hi, hi'⟩]
  · rw [getElem?_append_right (by omega), getElem?_drop, if_neg (by omega)]
    congr 1
    omega

/-- Where the cell `i` was before the blocks at `p` and `q` were exchanged. -/
def swapIndex (p q n i : ℕ) : ℕ :=
  if q ≤ i ∧ i < q + n then p + (i - q) else if p ≤ i ∧ i < p + n then q + (i - p) else i

theorem getElem?_swapBlocks (p q n : ℕ) (hp : p + n ≤ l.length) (hq : q + n ≤ l.length) (i : ℕ) :
    (swapBlocks l p q n)[i]? = l[swapIndex p q n i]? := by
  have hblock : (slice l p n).length = n := slice_length l p n hp
  have hblock' : (slice l q n).length = n := slice_length l q n hq
  have hlen : (overwrite l p (slice l q n)).length = l.length := overwrite_length l p _ (by omega)
  rw [swapBlocks, getElem?_overwrite _ _ _ (by omega), getElem?_overwrite _ _ _ (by omega), hblock, hblock',
    getElem?_slice, getElem?_slice, swapIndex]
  split
  · rw [if_pos (by omega)]
  split
  · rw [if_pos (by omega)]
  · rfl

theorem slice_congr {l r : List α} {p q n : ℕ} (h : ∀ i < n, l[p + i]? = r[q + i]?) :
    slice l p n = slice r q n := by
  refine ext_getElem? fun i => ?_
  rw [getElem?_slice, getElem?_slice]
  split
  · exact h i ‹_›
  · rfl

theorem slice_overwrite_ne (h : pos + src.length ≤ l.length) {p n : ℕ}
    (hne : p + n ≤ pos ∨ pos + src.length ≤ p) : slice (overwrite l pos src) p n = slice l p n := by
  refine slice_congr fun i hi => ?_
  rw [getElem?_overwrite l pos src h, if_neg (by omega)]

/-! ### Accesses that are checked -/

def loadBlock (l : List α) (pos n : ℕ) : Option (List α) :=
    if pos + n ≤ l.length then some (slice l pos n) else none

def storeBlock (l : List α) (pos : ℕ) (src : List α) : Option (List α) :=
  if pos + src.length ≤ l.length then some (overwrite l pos src) else none

theorem loadBlock_eq (h : pos + n ≤ l.length) : loadBlock l pos n = some (slice l pos n) :=
  if_pos h

theorem storeBlock_eq (h : pos + src.length ≤ l.length) :
    storeBlock l pos src = some (overwrite l pos src) := if_pos h

def exchangeBlocks (l : List α) (p q n : ℕ) : Option (List α) := do
  let tmp ← loadBlock l p n
  let src ← loadBlock l q n
  let l ← storeBlock l p src
  storeBlock l q tmp

theorem exchangeBlocks_eq (p q n : ℕ) (hp : p + n ≤ l.length) (hq : q + n ≤ l.length) :
    exchangeBlocks l p q n = some (swapBlocks l p q n) := by
  have hsq : (slice l q n).length = n := slice_length l q n hq
  have hsp : (slice l p n).length = n := slice_length l p n hp
  have hlen : (overwrite l p (slice l q n)).length = l.length := overwrite_length l p _ (by rw [hsq]; exact hp)
  simp only [exchangeBlocks, loadBlock_eq l p n hp, loadBlock_eq l q n hq, Option.bind_eq_bind, Option.bind_some,
    storeBlock_eq l p _ (le_of_eq_of_le (by rw [hsq]) hp),
      storeBlock_eq _ q _ (le_of_eq_of_le (by rw [hsp]) (hlen ▸ hq))]
  rfl

/-! ### Stores that may run beyond the region -/

/-- The region behind a store of `src` from `pos` on. -/
def blit (l : List α) (pos : ℕ) (src : List α) : List α := (overwrite l pos src).take l.length

@[simp] theorem blit_length : (blit l pos src).length = l.length := by
  simp only [blit, overwrite, length_append, length_take, length_drop]
  omega

theorem blit_eq_overwrite (h : pos + src.length ≤ l.length) :
    blit l pos src = overwrite l pos src := by
  rw [blit, ← overwrite_length l pos src h, take_length]

theorem slice_blit_self (h : pos + src.length ≤ l.length) : slice (blit l pos src) pos src.length = src := by
  rw [blit_eq_overwrite l pos src h, slice_overwrite_self l pos src (by omega)]

theorem take_blit : (blit l pos src).take pos = l.take pos := by
  have hcut : (l.take pos ++ (src ++ l.drop (pos + src.length))).take (min pos l.length) = l.take pos := by
    rw [take_append_of_le_length (by rw [length_take]), take_take, Nat.min_eq_left (by omega),
      ← take_take, take_length]
  rw [blit, overwrite, take_take, append_assoc, hcut]

theorem slice_blit_before {q n : ℕ} (hq : q + n ≤ pos) : slice (blit l pos src) q n = slice l q n := by
  have hfront : ∀ r : List α, slice r q n = ((r.take pos).drop q).take n := by
    intro r
    rw [slice, drop_take, take_take, Nat.min_eq_left (by omega)]
  rw [hfront, hfront l, take_blit]

theorem drop_blit (off : ℕ) (src : List α) (h : pos ≤ l.length) :
    (blit l (pos + off) src).drop pos = blit (l.drop pos) off src := by
  rw [blit, blit, drop_take, length_drop]
  congr 1
  rw [overwrite, overwrite, append_assoc, append_assoc,
    drop_append_of_le_length (by rw [length_take]; omega), drop_take, Nat.add_sub_cancel_left,
    drop_drop, Nat.add_assoc]

/-- A store at the front and one to the end of the region, which together cover it. -/
theorem blit_blit (a b : List α) (k : ℕ) (hk : k ≤ a.length) (ha : a.length ≤ l.length)
    (hl : l.length = k + b.length) :
    blit (blit l 0 a) k b = a.take k ++ b := by
  have hfront : blit l 0 a = a ++ l.drop a.length := by
    rw [blit_eq_overwrite l 0 a (by omega), overwrite, take_zero, nil_append, Nat.zero_add]
  rw [blit_eq_overwrite _ _ _ (by rw [blit_length]; omega), overwrite, hfront,
    take_append_of_le_length hk, drop_eq_nil_of_le (by simp; omega), append_nil]

theorem blit_all (h : src.length = l.length) : blit l 0 src = src := by
  rw [blit_eq_overwrite l 0 src (by omega), overwrite, take_zero, nil_append,
    drop_eq_nil_of_le (by omega), append_nil]

theorem slice_append (m n : ℕ) : slice l pos m ++ slice l (pos + m) n = slice l pos (m + n) := by
  rw [slice, slice, slice, ← drop_drop, ← take_add]

/-! ### Numbers, the lowest byte first -/

/-- The `k` lowest bytes of a number. -/
def leBytes : ℕ → ℕ → List UInt8
  | 0, _ => []
  | k + 1, n => UInt8.ofNat n :: leBytes k (n / 256)

def ofLeBytes (bytes : List UInt8) : ℕ := Nat.ofDigits 256 (bytes.map UInt8.toNat)

@[simp] theorem leBytes_length (k n : ℕ) : (leBytes k n).length = k := by
  induction k generalizing n with
  | zero => rfl
  | succ k ih => rw [leBytes, length_cons, ih]

theorem ofLeBytes_leBytes (k n : ℕ) : ofLeBytes (leBytes k n) = n % 256 ^ k := by
  induction k generalizing n with
  | zero => simp [leBytes, ofLeBytes, Nat.mod_one]
  | succ k ih =>
    have htail : Nat.ofDigits 256 ((leBytes k (n / 256)).map UInt8.toNat) = n / 256 % 256 ^ k := ih (n / 256)
    rw [leBytes, ofLeBytes, map_cons, Nat.ofDigits_cons, htail, Nat.pow_succ', Nat.mod_mul]
    simp

end ByteBuffer
