import BmcCache.RxFilter
import Mathlib.Data.List.TakeWhile

/-!
# `bmc_hash_keys`: one key of the request per call

Each call reads one word of the request, up to a space or the `'\r'` that ends the request, and hashes it.  If the
entry it addresses is valid with that hash, the word is saved in `map_keys` for `bmc_write_reply`.  At the end of
the request the pushed bytes are popped again and `bmc_prepare_packet` takes over; otherwise the word is pushed
and the program calls itself for the next one.

* `hashLoop_word`, `hashLoop_long` — the scanning loop is `takeWhile` on the remaining bytes;
* `Holds`, `KeysHold` — what the saved records of the key table stand for;
* `hashKeys_full`, `hashKeys_unexpected`, `hashKeys_word` — the three things a call can make of its word;
* `hashKeysNext_done`, `hashKeysNext_more`, `hashKeysNext_short` — how it goes on behind the word, each under
  the condition on the remaining bytes that selects it.
-/

namespace BmcCache

open ByteBuffer List

/-- What the hashing loop leaves in `off`, `done_parsing`, `key_len` and `key->hash`. -/
structure KeyScan where
  off : ℕ
  doneParsing : Bool
  keyLen : ℕ
  hash : UInt32
  deriving DecidableEq, Repr

/-- `for (off = 0; off < BMC_MAX_KEY_LENGTH+1 && payload+off+1 <= data_end; off++) { .. }`, over the bytes from
`payload[off]` on. -/
def hashLoop (off keyLen : ℕ) (hash : UInt32) : Bytes → KeyScan
  | [] => ⟨off, false, keyLen, hash⟩
  | b :: rest =>
    if off < bmcMaxKeyLength + 1 then
      if b = cr then ⟨off, true, keyLen, hash⟩
      else if b = space then ⟨off, false, keyLen, hash⟩
      else hashLoop (off + 1) (keyLen + 1) (fnvStep hash b) rest
    else ⟨off, false, keyLen, hash⟩

/-- `for (; i < key_len && payload+i+1 <= data_end; i++) key->data[i] = payload[i];` -/
def copyKeyLoop (keyLen : ℕ) : ℕ → Bytes → Bytes → Bytes
  | _, [], data => data
  | i, b :: rest, data => if i < keyLen then copyKeyLoop keyLen (i + 1) rest (data.set i b) else data

theorem copyKeyLoop_length (keyLen : ℕ) (l : Bytes) :
    ∀ (i : ℕ) (data : Bytes), (copyKeyLoop keyLen i l data).length = data.length := by
  induction l with
  | nil => intro i data; rfl
  | cons b rest ih =>
    intro i data
    simp only [copyKeyLoop]
    split
    · rw [ih, length_set]
    · rfl

/-- `bpf_xdp_adjust_head(ctx, 0 - (headers + pctx->read_pkt_offset))`, whose error return is not looked at. -/
def popToStart (ctx : XdpMd) (readPktOffset : ℕ) : XdpMd :=
  (bpfXdpAdjustHead ctx (0 - ((sizeofHeaders + readPktOffset : ℕ) : ℤ))).getD ctx

/-- `bmc_hash_keys_main` from the test of `done_parsing` on. -/
def hashKeysNext (s : XdpState) (pctx : ParsingContext) (scan : KeyScan) : XdpState × XdpOutcome :=
  if scan.doneParsing then -- the end of the request has been reached
    let s := { s with ctx := popToStart s.ctx pctx.readPktOffset }
    if 0 < pctx.keyCount then (s, .tailCall .preparePacket .pass) else (s, .ret .pass)
  else
    let off := scan.off + 1
    let s := { s with pctx := s.pctx.set 0 { pctx with readPktOffset := u16 (pctx.readPktOffset + off) } }
    match bpfXdpAdjustHead s.ctx off with
    | none => (s, .ret .pass)
    | some ctx => ({ s with ctx := ctx }, .tailCall .hashKeys .pass)

def bmcHashKeysMain (s : XdpState) : XdpState × XdpOutcome :=
  let payload := s.ctx.packet
  if payload.length = 0 then (s, .ret .pass)
  else
    match s.pctx.lookup 0 with
    | none => (s, .ret .pass)
    | some pctx =>
      match s.keys.lookup pctx.keyCount with
      | none => (s, .ret .pass)
      | some key =>
        let scan := hashLoop 0 0 fnvOffsetBasis32 payload
        let key := { key with hash := scan.hash }
        let s := { s with keys := s.keys.set pctx.keyCount key }
        if scan.keyLen = 0 ∨ bmcMaxKeyLength < scan.keyLen then
          -- unexpected key, let the netstack handle it
          ({ s with ctx := popToStart s.ctx pctx.readPktOffset }, .ret .pass)
        else
          match s.kcache.lookup (cacheIdx key.hash) with
          | none => (s, .ret .pass)
          | some entry =>
            if entry.holdsHash key.hash then -- potential cache hit
              let data := copyKeyLoop scan.keyLen 0 payload key.data
              let key : MemcachedKey :=
                ⟨key.hash, data, scan.keyLen, (copyKeyLoop_length _ _ _ _).trans key.data_length⟩
              let pctx' := { pctx with keyCount := u32 (pctx.keyCount + 1) }
              hashKeysNext
                { s with keys := s.keys.set pctx.keyCount key, pctx := s.pctx.set 0 pctx' } pctx' scan
            else
              match s.stats.lookup 0 with
              | none => (s, .ret .pass)
              | some stats =>
                hashKeysNext
                  { s with stats := s.stats.set 0 { stats with missCount := u32 (stats.missCount + 1) } } pctx scan

/-! ### The scanning loop -/

/-- The bytes a key is made of: neither the separator nor the end of the request. -/
def keyByte (b : UInt8) : Bool := b != space && b != cr

def nextWord (l : Bytes) : Bytes := l.takeWhile keyByte

theorem nextWord_cons (b : UInt8) (rest : Bytes) :
    nextWord (b :: rest) = if keyByte b then b :: nextWord rest else [] := by
  simp only [nextWord, takeWhile_cons]

theorem keyByte_eq_true {b : UInt8} : keyByte b = true ↔ b ≠ space ∧ b ≠ cr := by
  simp [keyByte]

variable (l : Bytes)

theorem nextWord_all : ∀ b ∈ nextWord l, keyByte b = true := by
  intro b hb
  exact mem_takeWhile_imp hb

theorem take_nextWord : l.take (nextWord l).length = nextWord l :=
  (prefix_iff_eq_take.mp (List.takeWhile_prefix keyByte)).symm

/-- A word of at most 250 bytes is hashed whole, and the loop stops behind it. -/
theorem hashLoop_word : ∀ (off keyLen : ℕ) (hash : UInt32),
    off + (nextWord l).length ≤ bmcMaxKeyLength →
    hashLoop off keyLen hash l =
      ⟨off + (nextWord l).length, decide (l[(nextWord l).length]? = some cr),
        keyLen + (nextWord l).length, (nextWord l).foldl fnvStep hash⟩ := by
  induction l with
  | nil => intro off keyLen hash _; simp [hashLoop, nextWord]
  | cons b rest ih =>
    intro off keyLen hash h
    have hoff : off < bmcMaxKeyLength + 1 := by simp at h ⊢; omega
    by_cases hk : keyByte b = true
    · have hne := keyByte_eq_true.mp hk
      rw [nextWord_cons, if_pos hk] at h ⊢
      simp only [length_cons] at h
      rw [hashLoop, if_pos hoff, if_neg hne.2, if_neg hne.1, ih (off + 1) (keyLen + 1) _ (by omega)]
      simp only [length_cons, getElem?_cons_succ, foldl_cons, KeyScan.mk.injEq,
        and_true, true_and]
      omega
    · rw [nextWord_cons, if_neg hk, hashLoop, if_pos hoff]
      simp only [length_nil, Nat.add_zero, getElem?_cons_zero, Option.some.injEq, foldl_nil]
      by_cases hc : b = cr
      · simp [hc]
      · have hs : b = space := by
          by_contra hs
          exact hk (keyByte_eq_true.mpr ⟨hs, hc⟩)
        rw [if_neg hc, if_pos hs]
        simp [hc]

theorem hashLoop_long : ∀ (off keyLen : ℕ) (hash : UInt32),
    off ≤ bmcMaxKeyLength + 1 → bmcMaxKeyLength < off + (nextWord l).length →
    (hashLoop off keyLen hash l).keyLen = keyLen + (bmcMaxKeyLength + 1 - off) := by
  induction l with
  | nil =>
    intro off keyLen hash hle h
    simp only [nextWord, takeWhile_nil, length_nil] at h
    simp only [hashLoop]
    omega
  | cons b rest ih =>
    intro off keyLen hash hle h
    rcases Nat.lt_or_ge off (bmcMaxKeyLength + 1) with hoff | hoff
    · by_cases hk : keyByte b = true
      · have hne := keyByte_eq_true.mp hk
        rw [nextWord_cons, if_pos hk, length_cons] at h
        rw [hashLoop, if_pos hoff, if_neg hne.2, if_neg hne.1,
          ih (off + 1) (keyLen + 1) _ (by omega) (by omega)]
        omega
      · rw [nextWord_cons, if_neg hk, length_nil] at h
        omega
    · rw [hashLoop, if_neg (by omega)]
      simp only
      omega

/-- The copied key is stored over the front of the record's array. -/
theorem copyKeyLoop_eq (keyLen : ℕ) (l : Bytes) : ∀ (i : ℕ) (data : Bytes),
    keyLen ≤ data.length → copyKeyLoop keyLen i l data = overwrite data i (l.take (keyLen - i)) := by
  induction l with
  | nil => intro i data _; simp [copyKeyLoop, overwrite_nil]
  | cons b rest ih =>
    intro i data h
    simp only [copyKeyLoop]
    split
    · rename_i hi
      rw [ih (i + 1) (data.set i b) (by rw [length_set]; exact h),
        set_eq_overwrite data i b (by omega)]
      have hj := overwrite_overwrite data i [b] (rest.take (keyLen - (i + 1))) (by omega)
      simp only [length_singleton, singleton_append] at hj
      rw [hj, show keyLen - i = (keyLen - (i + 1)) + 1 from by omega, take_succ_cons]
    · rename_i hi
      rw [show keyLen - i = 0 from by omega, take_zero, overwrite_nil]

/-! ### The key table -/

/-- The record holds the key `w`: its bytes, its length and its hash. -/
structure MemcachedKey.Holds (r : MemcachedKey) (w : Bytes) : Prop where
  hash : r.hash = fnv1a w
  len : r.len = w.length
  data : r.data.take w.length = w

/-- The first records of the table hold the saved keys, in order. -/
def KeysHold (keys : KeyMap) (saved : List Bytes) : Prop :=
  ∀ i w, saved[i]? = some w → ∃ r, keys.lookup i = some r ∧ r.Holds w

theorem keysHold_nil (keys : KeyMap) : KeysHold keys [] := by
  intro i w h
  simp at h

theorem KeysHold.set_behind {keys : KeyMap} {saved : List Bytes} (h : KeysHold keys saved) {i : ℕ}
    (hi : saved.length ≤ i) (r : MemcachedKey) : KeysHold (keys.set i r) saved := by
  intro j w hj
  obtain ⟨r', hr, hw⟩ := h j w hj
  have hlt : j < saved.length := (List.getElem?_eq_some_iff.mp hj).1
  exact ⟨r', by rw [ArrayMap.lookup_set_ne _ _ (by omega)]; exact hr, hw⟩

theorem KeysHold.snoc {keys : KeyMap} {saved : List Bytes} (h : KeysHold keys saved)
    (hlt : saved.length < bmcMaxKeyInPacket) {r : MemcachedKey} {w : Bytes} (hw : r.Holds w) :
    KeysHold (keys.set saved.length r) (saved ++ [w]) := by
  intro j w' hj
  rcases Nat.lt_trichotomy j saved.length with hjl | hje | hjg
  · rw [getElem?_append_left hjl] at hj
    exact h.set_behind le_rfl r j w' hj
  · subst hje
    rw [getElem?_concat_length, Option.some.injEq] at hj
    subst hj
    exact ⟨r, ArrayMap.lookup_set_self _ _ hlt, hw⟩
  · rw [getElem?_eq_none (by rw [length_append, length_singleton]; omega)] at hj
    exact absurd hj (by simp)

/-- `entry->valid && entry->hash == key->hash` for the key `w` -/
def keyHit (kc : KCache) (w : Bytes) : Bool := (kc.entryAt (fnv1a w)).holdsHash (fnv1a w)

/-- The saved keys after the word `w`. -/
def saveKey (kc : KCache) (saved : List Bytes) (w : Bytes) : List Bytes :=
  if keyHit kc w then saved ++ [w] else saved

theorem saveKey_length_le (kc : KCache) (saved : List Bytes) (w : Bytes) :
    (saveKey kc saved w).length ≤ saved.length + 1 := by
  unfold saveKey
  split <;> simp

/-! ### How a call ends -/

/-- The cursor stands on a key: `r` bytes of the text of the frame `F`, behind the headroom `H`, are pushed. -/
structure AtKey (H F : Bytes) (ctx : XdpMd) (r : ℕ) : Prop where
  head : ctx.head = H ++ F.take (sizeofHeaders + r)
  packet : ctx.packet = F.drop (sizeofHeaders + r)
  room : sizeofHeaders + r + 14 ≤ F.length

theorem AtKey.popToStart {H F : Bytes} {ctx : XdpMd} {r : ℕ} (h : AtKey H F ctx r) :
    popToStart ctx r = ⟨H, F⟩ := by
  obtain ⟨hh, hp, hroom⟩ := h
  have hctx : ctx = ⟨H ++ F.take (sizeofHeaders + r), F.drop (sizeofHeaders + r)⟩ := by
    cases ctx; simp_all
  have htake : (F.take (sizeofHeaders + r)).length = sizeofHeaders + r := by
    rw [length_take]; omega
  rw [BmcCache.popToStart, hctx,
    adjustHead_pop H _ _ _ (by rw [htake]; omega) (by rw [htake, length_drop]; omega),
    take_append_drop, Option.getD_some]

theorem AtKey.push {H F : Bytes} {ctx : XdpMd} {r : ℕ} (h : AtKey H F ctx r) (n : ℕ)
    (hroom : n + 14 ≤ ctx.packet.length) :
    ∃ ctx', bpfXdpAdjustHead ctx n = some ctx' ∧ AtKey H F ctx' (r + n) ∧
      ctx'.packet = ctx.packet.drop n := by
  refine ⟨_, adjustHead_push ctx n hroom, ⟨?_, ?_, ?_⟩, rfl⟩
  · rw [h.head, h.packet, append_assoc, ← Nat.add_assoc, take_add (i := sizeofHeaders + r)]
  · simp only [h.packet, drop_drop, ← Nat.add_assoc]
  · rw [h.packet, length_drop] at hroom
    omega

variable (s : XdpState) (pc : ParsingContext)

theorem hashKeys_full (hp : s.pctx.lookup 0 = some pc)
    (hfull : bmcMaxKeyInPacket ≤ pc.keyCount) : bmcHashKeysMain s = (s, .ret .pass) := by
  simp only [bmcHashKeysMain, hp, ArrayMap.lookup_of_ge s.keys hfull, ite_self]

theorem hashKeys_unexpected (hp : s.pctx.lookup 0 = some pc)
    (hlt : pc.keyCount < bmcMaxKeyInPacket) (hne : s.ctx.packet ≠ [])
    (hw : nextWord s.ctx.packet = [] ∨ bmcMaxKeyLength < (nextWord s.ctx.packet).length) :
    ∃ keys, bmcHashKeysMain s =
      ({ s with ctx := popToStart s.ctx pc.readPktOffset, keys := keys }, .ret .pass) := by
  have hlen : ¬ s.ctx.packet.length = 0 := by simpa using hne
  have hscan : (hashLoop 0 0 fnvOffsetBasis32 s.ctx.packet).keyLen = 0 ∨
      bmcMaxKeyLength < (hashLoop 0 0 fnvOffsetBasis32 s.ctx.packet).keyLen := by
    rcases hw with hw | hw
    · left
      rw [hashLoop_word _ 0 0 _ (by simp [hw]), hw]
      rfl
    · right
      rw [hashLoop_long _ 0 0 _ (Nat.zero_le _) (by omega)]
      omega
  simp only [bmcHashKeysMain, if_neg hlen, hp, ArrayMap.lookup_of_lt s.keys hlt, if_pos hscan]
  exact ⟨_, rfl⟩

def countMiss (stats : StatsMap) : StatsMap :=
  stats.set 0 { stats ⟨0, Nat.one_pos⟩ with missCount := u32 ((stats ⟨0, Nat.one_pos⟩).missCount + 1) }

/-- **One key.**  On a word of 1 to 250 bytes the call saves it or counts a miss, and goes on behind the word. -/
theorem hashKeys_word (saved : List Bytes)
    (hp : s.pctx.lookup 0 = some pc) (hcount : pc.keyCount = saved.length)
    (hlt : saved.length < bmcMaxKeyInPacket) (hkeys : KeysHold s.keys saved)
    (hne : nextWord s.ctx.packet ≠ []) (hle : (nextWord s.ctx.packet).length ≤ bmcMaxKeyLength) :
    ∃ keys pcm,
      bmcHashKeysMain s =
        hashKeysNext
          { s with
            keys := keys
            pctx := pcm
            stats := if keyHit s.kcache (nextWord s.ctx.packet) then s.stats else countMiss s.stats }
          { pc with keyCount := (saveKey s.kcache saved (nextWord s.ctx.packet)).length }
          ⟨(nextWord s.ctx.packet).length,
            decide (s.ctx.packet[(nextWord s.ctx.packet).length]? = some cr),
            (nextWord s.ctx.packet).length, fnv1a (nextWord s.ctx.packet)⟩ ∧
      pcm.lookup 0 = some { pc with keyCount := (saveKey s.kcache saved (nextWord s.ctx.packet)).length } ∧
      KeysHold keys (saveKey s.kcache saved (nextWord s.ctx.packet)) := by
  set w := nextWord s.ctx.packet with hwdef
  have hpos : 0 < w.length := length_pos_iff.mpr hne
  have hplen : ¬ s.ctx.packet.length = 0 := by
    intro h0
    apply hne
    rw [hwdef, eq_nil_of_length_eq_zero h0]
    rfl
  have hscan : hashLoop 0 0 fnvOffsetBasis32 s.ctx.packet =
      ⟨w.length, decide (s.ctx.packet[w.length]? = some cr), w.length, fnv1a w⟩ := by
    rw [hashLoop_word _ 0 0 _ (by rw [Nat.zero_add]; exact hle), ← hwdef]
    simp [fnv1a]
  have hok : ¬ (w.length = 0 ∨ bmcMaxKeyLength < w.length) := by omega
  rw [← hcount] at hlt
  obtain ⟨key, hkey⟩ : ∃ key, s.keys.lookup pc.keyCount = some key :=
    ⟨_, ArrayMap.lookup_of_lt s.keys hlt⟩
  simp only [bmcHashKeysMain, if_neg hplen, hp, hkey, hscan, if_neg hok, KCache.lookup_cacheIdx]
  by_cases hhit : (s.kcache.entryAt (fnv1a w)).holdsHash (fnv1a w) = true
  · have hsave : saveKey s.kcache saved w = saved ++ [w] := by simp [saveKey, keyHit, hhit]
    have hlen : u32 (pc.keyCount + 1) = (saved ++ [w]).length := by
      rw [u32_of_lt (by simp at hlt; omega), length_append, length_singleton, hcount]
    have htake : s.ctx.packet.take w.length = w := take_nextWord s.ctx.packet
    have hdata : (copyKeyLoop w.length 0 s.ctx.packet key.data).take w.length = w := by
      rw [copyKeyLoop_eq w.length _ 0 key.data (by rw [key.data_length]; exact hle), Nat.sub_zero, htake,
        overwrite, take_zero, nil_append, take_left]
    simp only [hhit, if_true, hsave, hlen, keyHit]
    refine ⟨_, _, rfl, ArrayMap.lookup_set_self _ _ Nat.one_pos, ?_⟩
    rw [hcount]
    exact (hkeys.set_behind le_rfl _).snoc (by omega) ⟨rfl, rfl, hdata⟩
  · have hsave : saveKey s.kcache saved w = saved := by simp [saveKey, keyHit, hhit]
    simp only [hhit, if_false, hsave, keyHit, ArrayMap.lookup_of_lt s.stats Nat.one_pos, Bool.false_eq_true,
      countMiss]
    refine ⟨_, s.pctx, by rw [← hcount], by rw [← hcount]; exact hp, ?_⟩
    exact hkeys.set_behind (by omega) _

variable (scan : KeyScan)

theorem hashKeysNext_stats : (hashKeysNext s pc scan).1.stats = s.stats := by
  unfold hashKeysNext
  dsimp only
  split
  · split
    · rfl
    · rfl
  · split
    · rfl
    · rfl

/-- The last key: the frame is whole again, and `bmc_prepare_packet` is called if any key was saved. -/
theorem hashKeysNext_done {H F : Bytes}
    (hat : AtKey H F s.ctx pc.readPktOffset) (hdone : scan.doneParsing = true) :
    hashKeysNext s pc scan =
      ({ s with ctx := ⟨H, F⟩ }, if 0 < pc.keyCount then .tailCall .preparePacket .pass else .ret .pass) := by
  simp only [hashKeysNext, hdone, if_true, hat.popToStart]
  split <;> rfl

/-- Another key follows, and enough of the frame is left to push this one. -/
theorem hashKeysNext_more {H F : Bytes}
    (hat : AtKey H F s.ctx pc.readPktOffset) (hdone : scan.doneParsing = false)
    (hroom : scan.off + 1 + 14 ≤ s.ctx.packet.length)
    (hsmall : pc.readPktOffset + (scan.off + 1) < 65536) :
    ∃ ctx pcm,
      hashKeysNext s pc scan = ({ s with ctx := ctx, pctx := pcm }, .tailCall .hashKeys .pass) ∧
      pcm.lookup 0 = some { pc with readPktOffset := pc.readPktOffset + (scan.off + 1) } ∧
      AtKey H F ctx (pc.readPktOffset + (scan.off + 1)) ∧
      ctx.packet = s.ctx.packet.drop (scan.off + 1) := by
  obtain ⟨ctx, hctx, hat', hpkt⟩ := hat.push (scan.off + 1) hroom
  simp only [hashKeysNext, hdone, Bool.false_eq_true, if_false, hctx, u16_of_lt hsmall]
  exact ⟨ctx, _, rfl, ArrayMap.lookup_set_self _ _ Nat.one_pos, hat', hpkt⟩

/-- Fewer than 14 bytes would remain: the push fails and the call ends with the key still pushed. -/
theorem hashKeysNext_short
    (hdone : scan.doneParsing = false) (hroom : s.ctx.packet.length < scan.off + 1 + 14) :
    ∃ pcm, hashKeysNext s pc scan = ({ s with pctx := pcm }, .ret .pass) := by
  simp only [hashKeysNext, hdone, Bool.false_eq_true, if_false,
    adjustHead_push_fail s.ctx (scan.off + 1) hroom]
  exact ⟨_, rfl⟩

end BmcCache
