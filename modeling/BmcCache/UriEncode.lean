import BmcCache.ByteBuffer
import BmcCache.Common

/-!
# Keys in dumps and logs

`uriencode` copies a key into a buffer of its caller, with `%` and two hexadecimal digits for every byte that is not a
letter, a digit or one of `-._~`.  The digits come from a table that `uriencode_init` fills at the start.

* `uriencodeLoop_eq` — the loop stores the encoded bytes one behind the other;
* `uriencode_key` — the key can be read back from the text.
-/

namespace BmcCache

open ByteBuffer List

/-- The test of `uriencode_init`, in the C locale. -/
def unreserved (x : ℕ) : Bool :=
  (48 ≤ x && x ≤ 57) || (65 ≤ x && x ≤ 90) || (97 ≤ x && x ≤ 122) || x == 45 || x == 46 ||
    x == 95 || x == 126

def hexChar (n : ℕ) : UInt8 := UInt8.ofNat (if n < 10 then 48 + n else 55 + n)

/-- `%%%02hhX`. -/
def escape (x : ℕ) : Bytes := [37, hexChar (x / 16), hexChar (x % 16)]

/-- `uriencode_map` as `uriencode_init` fills it, with the strings its entries point at. -/
def uriencodeMap : List (Option Bytes) :=
  (range 256).map fun x => if unreserved x then none else some (escape x)

/-- The loop of `uriencode` and the zero byte behind it; a store behind `dst` fails. -/
def uriencodeLoop (map : List (Option Bytes)) : Bytes → Bytes → ℕ → Option (Bool × Bytes)
  | [], dst, d => (storeBlock dst d [0]).map fun dst => (true, dst)
  | c :: src, dst, d =>
    if dst.length < d + 4 then some (false, dst)
    else
      match map.getD c.toNat none with
      | some str => (storeBlock dst d (str.take 3)).bind fun dst => uriencodeLoop map src dst (d + 3)
      | none => (storeBlock dst d [c]).bind fun dst => uriencodeLoop map src dst (d + 1)

def uriencode (src dst : Bytes) : Option (Bool × Bytes) := uriencodeLoop uriencodeMap src dst 0

/-! ### The text of a key -/

def uriByte (c : UInt8) : Bytes := if unreserved c.toNat then [c] else escape c.toNat

def hexValue (c : UInt8) : ℕ := if c.toNat < 58 then c.toNat - 48 else c.toNat - 55

/-- How a client reads a key. -/
def uridecode : Bytes → Bytes
  | [] => []
  | c :: rest =>
    if c = 37 then
      match rest with
      | a :: b :: rest => UInt8.ofNat (16 * hexValue a + hexValue b) :: uridecode rest
      | _ => c :: rest
    else c :: uridecode rest

theorem getD_uriencodeMap (c : UInt8) :
    uriencodeMap.getD c.toNat none = if unreserved c.toNat then none else some (escape c.toNat) := by
  rw [uriencodeMap, getD_eq_getElem?_getD, getElem?_map, getElem?_range c.toNat_lt, Option.map_some, Option.getD_some]

theorem uriByte_alphabet (c : UInt8) : ∀ x ∈ uriByte c, (unreserved x.toNat || x.toNat == 37) = true := by
  have hall : ((range 256).all fun n => (uriByte (UInt8.ofNat n)).all fun x =>
      unreserved x.toNat || x.toNat == 37) = true := by
    decide +kernel
  have hc := all_eq_true.mp hall c.toNat (mem_range.mpr c.toNat_lt)
  rw [UInt8.ofNat_toNat] at hc
  exact all_eq_true.mp hc

theorem hexValue_escape (n : ℕ) (hn : n < 256) :
    16 * hexValue (hexChar (n / 16)) + hexValue (hexChar (n % 16)) = n := by
  have hall : ((range 16).all fun d => hexValue (hexChar d) == d) = true := by decide +kernel
  have hdigit : ∀ d < 16, hexValue (hexChar d) = d :=
    fun d hd => beq_iff_eq.mp (all_eq_true.mp hall d (mem_range.mpr hd))
  rw [hdigit _ (by omega), hdigit _ (by omega)]
  omega

theorem uridecode_uriByte (c : UInt8) (rest : Bytes) : uridecode (uriByte c ++ rest) = c :: uridecode rest := by
  rw [uriByte]
  split
  · rename_i h
    have hne : c ≠ 37 := by
      rintro rfl
      exact absurd h (by decide)
    rw [singleton_append, uridecode.eq_def]
    exact if_neg hne
  · have hvalue := hexValue_escape c.toNat c.toNat_lt
    simp only [escape, cons_append, nil_append, uridecode, if_true, hvalue, UInt8.ofNat_toNat]

theorem uridecode_flatMap (key : Bytes) : uridecode (key.flatMap uriByte) = key := by
  induction key with
  | nil => rfl
  | cons c key ih => rw [flatMap_cons, uridecode_uriByte, ih]

theorem uriencodeLoop_eq (src : Bytes) : ∀ dst d, d + 3 * src.length < dst.length →
    uriencodeLoop uriencodeMap src dst d = some (true, overwrite dst d (src.flatMap uriByte ++ [0])) := by
  induction src with
  | nil =>
    intro dst d hfit
    rw [uriencodeLoop, storeBlock_eq _ _ _ hfit]
    rfl
  | cons c src ih =>
    intro dst d hfit
    rw [length_cons] at hfit
    have hnext : ∀ block : Bytes, block.length ≤ 3 → (storeBlock dst d block).bind (fun dst =>
        uriencodeLoop uriencodeMap src dst (d + block.length))
          = some (true, overwrite dst d (block ++ (src.flatMap uriByte ++ [0]))) := by
      intro block hblock
      have hin : d + block.length ≤ dst.length := by omega
      rw [storeBlock_eq _ _ _ hin, Option.bind_some, ih _ _ (by rw [overwrite_length _ _ _ hin]; omega),
        overwrite_overwrite _ _ _ _ (by omega)]
    rw [uriencodeLoop, if_neg (by omega), getD_uriencodeMap, flatMap_cons, append_assoc, uriByte]
    by_cases hplain : unreserved c.toNat = true
    · rw [if_pos hplain, if_pos hplain]
      exact hnext [c] (by simp)
    · rw [if_neg hplain, if_neg hplain]
      exact hnext (escape c.toNat) le_rfl

/-- **Keys are read back.** The callers' buffers hold every key: no store leaves them and the call does not give up;
the text has neither a space nor a line end in it and stands for that key alone. -/
theorem uriencode_key (key buf : Bytes) (hkey : key.length ≤ 250) (hbuf : buf.length = 3 * 250 + 1) :
    ∃ dst, uriencode key buf = some (true, dst) ∧
      (∀ x ∈ dst.takeWhile (· != 0), (unreserved x.toNat || x.toNat == 37) = true) ∧
      uridecode (dst.takeWhile (· != 0)) = key := by
  have halpha : ∀ x ∈ key.flatMap uriByte, (unreserved x.toNat || x.toNat == 37) = true :=
    forall_mem_flatMap.mpr fun c _ => uriByte_alphabet c
  have hzero : ∀ x ∈ key.flatMap uriByte, (x != 0) = true := by
    intro x hx
    refine bne_iff_ne.mpr ?_
    rintro rfl
    exact absurd (halpha 0 hx) (by decide)
  have htext : (overwrite buf 0 (key.flatMap uriByte ++ [0])).takeWhile (· != 0) = key.flatMap uriByte := by
    rw [overwrite, take_zero, nil_append, append_assoc, takeWhile_append_of_pos hzero]
    simp
  refine ⟨_, uriencodeLoop_eq key buf 0 (by omega), ?_, ?_⟩
  · rw [htext]
    exact halpha
  · rw [htext, uridecode_flatMap]

theorem uriencode_key_space : ∃ dst, uriencode [97, 32] (replicate 751 255) = some (true, dst) ∧
    uridecode (dst.takeWhile (· != 0)) = [97, 32] := by
  obtain ⟨dst, hdst, -, hkey⟩ := uriencode_key [97, 32] (replicate 751 255) (by decide) length_replicate
  exact ⟨dst, hdst, hkey⟩

end BmcCache
