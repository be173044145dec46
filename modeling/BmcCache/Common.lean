import BmcCache.ArrayMap
import Mathlib.Data.List.Basic
import Mathlib.Algebra.Ring.Nat

/-!
# The shared declarations: limits, hash and cache entries

What `bmc_common.h` declares for both sides, and the two things every program of `bmc_kern.c` does with it:
hashing a key with FNV-1a and reaching the entry of `map_kcache` a hash addresses.

The payload is declared as `char *`, so `hash ^= payload[off]` promotes a signed byte: bytes from `0x80` on are
sign-extended before the exclusive or.  `entry->hash` is an `int` compared with a `u32`, that is through its
unsigned value.

A `BmcCacheEntry` carries two facts about itself: its array has the declared size, and `len` stays inside it.
-/

namespace BmcCache

@[simp] abbrev bmcMaxKeyLength : ℕ := 250
@[simp] abbrev bmcMaxValLength : ℕ := 1000
@[simp] abbrev bmcMaxAdditionalPayloadBytes : ℕ := 53
@[simp] abbrev bmcMaxCacheDataSize : ℕ :=
  bmcMaxKeyLength + bmcMaxValLength + bmcMaxAdditionalPayloadBytes
@[simp] abbrev bmcMaxKeyInMultiget : ℕ := 30
@[simp] abbrev bmcCacheEntryCount : ℕ := 3250000
@[simp] abbrev bmcMaxPacketLength : ℕ := 1500
@[simp] abbrev bmcMaxKeyInPacket : ℕ := bmcMaxKeyInMultiget

/-! ### Bytes of the text protocol -/

abbrev Bytes := List UInt8

/-- `' '` -/
def space : UInt8 := 32

/-- `'\r'` -/
def cr : UInt8 := 13

/-- `'\n'` -/
def lf : UInt8 := 10

/-- `"get "` -/
def getWord : Bytes := [103, 101, 116, 32]

/-- `"VALUE "` -/
def valueWord : Bytes := [86, 65, 76, 85, 69, 32]

/-- `"END\r\n"` -/
def endLine : Bytes := [69, 78, 68, 13, 10]

/-! ### FNV-1a over signed characters -/

def fnvOffsetBasis32 : UInt32 := 2166136261
def fnvPrime32 : UInt32 := 16777619

/-- `hash ^= c; hash *= FNV_PRIME_32;` with `c` a signed `char`. -/
def fnvStep (hash : UInt32) (c : UInt8) : UInt32 :=
  (hash ^^^ c.toInt8.toInt32.toUInt32) * fnvPrime32

def fnv1a (key : Bytes) : UInt32 := key.foldl fnvStep fnvOffsetBasis32

/-! ### Cache entries -/

/-- `struct bmc_cache_entry`, without the lock: each program holds it over its whole access. -/
structure BmcCacheEntry where
  len : ℕ
  valid : Bool
  hash : Int32
  data : Bytes
  len_le : len ≤ bmcMaxCacheDataSize
  data_length : data.length = bmcMaxCacheDataSize
  deriving DecidableEq

namespace BmcCacheEntry

/-- `data[0..len)`, the bytes an entry stores. -/
def stored (e : BmcCacheEntry) : Bytes := e.data.take e.len

theorem stored_length (e : BmcCacheEntry) : e.stored.length = e.len := by
  rw [stored, List.length_take, e.data_length, Nat.min_eq_left e.len_le]

/-- `entry->valid && entry->hash == hash` -/
def holdsHash (e : BmcCacheEntry) (hash : UInt32) : Bool := e.valid && e.hash.toUInt32 == hash

theorem holdsHash_iff (e : BmcCacheEntry) (hash : UInt32) :
    e.holdsHash hash = true ↔ e.valid = true ∧ e.hash.toUInt32 = hash := by
  simp [holdsHash]

def zero : BmcCacheEntry where
  len := 0
  valid := false
  hash := 0
  data := List.replicate bmcMaxCacheDataSize 0
  len_le := Nat.zero_le _
  data_length := List.length_replicate

/-- `entry->valid = 0` -/
def invalidate (e : BmcCacheEntry) : BmcCacheEntry := { e with valid := false }

end BmcCacheEntry

/-- `map_kcache` -/
abbrev KCache : Type := ArrayMap bmcCacheEntryCount BmcCacheEntry

def KCache.zeroed : KCache := ArrayMap.replicate _ BmcCacheEntry.zero

theorem KCache.zeroed_valid (i : Fin bmcCacheEntryCount) : (KCache.zeroed i).valid = false := rfl

/-- `hash % BMC_CACHE_ENTRY_COUNT` -/
def cacheIdx (hash : UInt32) : ℕ := hash.toNat % bmcCacheEntryCount

theorem cacheIdx_lt (hash : UInt32) : cacheIdx hash < bmcCacheEntryCount :=
  Nat.mod_lt _ (by decide)

def KCache.entryAt (kc : KCache) (hash : UInt32) : BmcCacheEntry := kc ⟨cacheIdx hash, cacheIdx_lt hash⟩

@[simp] theorem KCache.lookup_cacheIdx (kc : KCache) (hash : UInt32) :
    kc.lookup (cacheIdx hash) = some (kc.entryAt hash) :=
  ArrayMap.lookup_of_lt kc (cacheIdx_lt hash)

end BmcCache
