import BmcCache.Chain

/-!
# The server behind the cache: keys, items and the text protocol

What `memcached.c` puts on the wire and what clients send to it, as far as the programs of `bmc_kern.c` read it.

* `Key` carries the rules a key obeys, so that no key with a separator in it can be built; `Item` is what a SET
  stores; `Store` is the content of the server.
* `valueBlock`, `getReply` — the reply `process_get_command` builds, one `VALUE` block for each requested key that is
  present, in request order, and the closing line.  `makeAsciiGetSuffix` is the part between key and data.
* `setText` — the `set` command.
* `IsGetOf`, `IsSegment`, `IsReply` — frames that carry a request or a reply, with any other header bytes.

The lemmas say how the cache's parsers read these texts: `IsGetOf.requestWords_eq` for the request,
`replyKey_named` and `replyPart_block` for the reply, `scanKeys_setText` for the command.
-/

namespace BmcCache

open Delimited List

/-! ### Keys, items, stores -/

/-- The keys of the text protocol: 1 to 250 bytes, neither space nor control byte. -/
@[ext] structure Key where
  bytes : Bytes
  ne_nil : bytes ≠ []
  length_le : bytes.length ≤ bmcMaxKeyLength
  plain : ∀ b ∈ bytes, 32 < b ∧ b ≠ 127
  deriving DecidableEq

@[ext] structure Item where
  flags : UInt32
  value : Bytes
  deriving DecidableEq, Repr

abbrev Store : Type := Key → Option Item

/-- The store with another item, or none, under `k`. -/
def Store.put (store : Store) (k : Key) (it : Option Item) : Store := fun j => if j = k then it else store j

@[simp] theorem Store.put_self (store : Store) (k : Key) (it : Option Item) : store.put k it k = it := if_pos rfl

theorem Store.put_ne (store : Store) {j k : Key} (it : Option Item) (h : j ≠ k) : store.put k it j = store j :=
  if_neg h

def Key.ofBytes (bytes : Bytes)
    (h : bytes ≠ [] ∧ bytes.length ≤ bmcMaxKeyLength ∧
      bytes.all (fun b => decide (32 < b ∧ b ≠ 127)) = true) : Key :=
  ⟨bytes, h.1, h.2.1, fun b hb => of_decide_eq_true (all_eq_true.mp h.2.2 b hb)⟩

variable (k : Key)

theorem Key.ne_of_not_plain {b c : UInt8} (hb : b ∈ k.bytes) (hc : c ≤ 32) : b ≠ c := by
  intro heq
  subst heq
  exact absurd (k.plain b hb).1 (UInt8.not_lt.mpr hc)

theorem Key.space_notMem : space ∉ k.bytes :=
  fun h => k.ne_of_not_plain h (c := space) (by decide) rfl

theorem Key.cr_notMem : cr ∉ k.bytes :=
  fun h => k.ne_of_not_plain h (c := cr) (by decide) rfl

theorem Key.lf_notMem : lf ∉ k.bytes :=
  fun h => k.ne_of_not_plain h (c := lf) (by decide) rfl

theorem Key.isKeyWord : IsKeyWord k.bytes where
  ne_nil := k.ne_nil
  length_le := k.length_le
  all := fun _ hb => keyByte_eq_true.mpr
    ⟨k.ne_of_not_plain hb (by decide), k.ne_of_not_plain hb (by decide)⟩

/-! ### Replies -/

/-- `itoa_u32`: decimal digits, the most significant first. -/
def itoa (n : ℕ) : Bytes := (Nat.toDigits 10 n).map fun c => UInt8.ofNat c.toNat

theorem itoa_notMem (n : ℕ) {c : UInt8} (hc : c < 48) : c ∉ itoa n := by
  intro h
  obtain ⟨d, hd, rfl⟩ := mem_map.mp h
  have hdig := Nat.isDigit_of_mem_toDigits (by omega) (by omega) hd
  simp only [Char.isDigit, Bool.and_eq_true, decide_eq_true_eq] at hdig
  have h1 : 48 ≤ d.toNat := hdig.1
  have h2 : d.toNat ≤ 57 := hdig.2
  rw [UInt8.lt_iff_toNat_lt, UInt8.toNat_ofNat_of_lt' (show d.toNat < 256 by omega)] at hc
  simp at hc
  omega

/-- `"\r\n"` -/
def crlf : Bytes := [cr, lf]

/-- `make_ascii_get_suffix` without a CAS value: flags and length of the data. -/
def makeAsciiGetSuffix (flags : Bytes) (nbytes : ℕ) : Bytes :=
  space :: flags ++ space :: itoa (nbytes - 2) ++ crlf

/-- `VALUE <key> <flags> <bytes>\r\n<data>\r\n`; `nbytes` counts the line end behind the data. -/
def valueBlock (key flags value : Bytes) : Bytes :=
  valueWord ++ key ++ makeAsciiGetSuffix flags (value.length + 2) ++ (value ++ crlf)

/-- The text of an item's flags; an item without them shows `0`. -/
def Item.flagsText (it : Item) : Bytes := if it.flags = 0 then [48] else itoa it.flags.toNat

/-- The block a GET of `k` returns for the item. -/
def Item.block (it : Item) (k : Key) : Bytes := valueBlock k.bytes it.flagsText it.value

theorem Item.flagsText_notMem (it : Item) {c : UInt8} (hc : c < 48) : c ∉ it.flagsText := by
  unfold Item.flagsText
  split
  · intro h
    rw [mem_singleton.mp h] at hc
    exact absurd hc (by decide)
  · exact itoa_notMem _ hc

/-- The blocks `process_get_command` sends for the requested keys. -/
def getBlocks (store : Store) (ks : List Key) : Bytes :=
  ks.flatMap fun k => match store k with
    | some it => it.block k
    | none => []

/-- `process_get_command`: a block for every requested key that is present, then the closing line. -/
def getReply (store : Store) (ks : List Key) : Bytes := getBlocks store ks ++ endLine

/-! ### Commands -/

/-- `"set "` -/
def setWord : Bytes := [115, 101, 116, 32]

/-- `set <key> <flags> <exptime> <bytes>\r\n<data>\r\n` -/
def setText (key flags exptime value : Bytes) : Bytes :=
  setWord ++ key ++ (space :: flags ++ space :: exptime ++ space :: itoa value.length ++ crlf) ++ (value ++ crlf)

/-- `get <key>*\r\n` -/
def getText (ks : List Key) : Bytes := getWord ++ [space].intercalate (ks.map Key.bytes) ++ crlf

/-! ### Frames -/

/-- A UDP datagram to the server that asks for `ks`; bytes may follow the request (short frames are padded). -/
structure IsGetOf (ks : List Key) (pkt : Bytes) : Prop where
  protocol : pkt.getD 23 0 = ipprotoUdp
  port : be16At pkt 36 = memcachedPort
  text : ∃ rest, pkt.drop sizeofHeaders = getText ks ++ rest

/-- A TCP segment to the server, with a header of 20 bytes and the given text. -/
structure IsSegment (text pkt : Bytes) : Prop where
  protocol : pkt.getD 23 0 = ipprotoTcp
  port : be16At pkt 36 = memcachedPort
  text_eq : pkt.drop (sizeofEthhdr + sizeofIphdr + sizeofTcphdr) = text

/-- A UDP datagram from the server with the given text, all of it linear. -/
structure IsReply (text : Bytes) (skb : SkBuff) : Prop where
  linear : skb.len = skb.data.length
  protocol : skb.data.getD 23 0 = ipprotoUdp
  port : be16At skb.data 34 = memcachedPort
  text_eq : skb.data.drop sizeofHeaders = text

/-- Headers of a datagram with port 11211 on both sides and nothing else filled in. -/
def udpHeaders : Bytes :=
  replicate 23 0 ++ 17 :: replicate 10 0 ++ [43, 203, 43, 203] ++ replicate 12 0

def tcpHeaders : Bytes :=
  replicate 23 0 ++ 6 :: replicate 10 0 ++ [43, 203, 43, 203] ++ replicate 8 0 ++
    80 :: replicate 7 0

def udpFrame (text : Bytes) : Bytes := udpHeaders ++ text

def tcpFrame (text : Bytes) : Bytes := tcpHeaders ++ text

def SkBuff.ofFrame (frame : Bytes) : SkBuff := ⟨frame.length, frame, le_rfl⟩

theorem be16At_append (l r : Bytes) (pos : ℕ) (h : pos + 2 ≤ l.length) :
    be16At (l ++ r) pos = be16At l pos := by
  rw [be16At, be16At, getD_append _ _ _ _ (by omega), getD_append _ _ _ _ (by omega)]

theorem isGetOf_udpFrame (ks : List Key) (rest : Bytes) : IsGetOf ks (udpFrame (getText ks ++ rest)) where
  protocol := by rw [udpFrame, getD_append _ _ _ _ (by decide)]; decide
  port := by rw [udpFrame, be16At_append _ _ _ (by decide)]; decide
  text := ⟨rest, drop_left' (by decide)⟩

theorem isSegment_tcpFrame (text : Bytes) : IsSegment text (tcpFrame text) where
  protocol := by rw [tcpFrame, getD_append _ _ _ _ (by decide)]; decide
  port := by rw [tcpFrame, be16At_append _ _ _ (by decide)]; decide
  text_eq := drop_left' (by decide)

theorem isReply_udpFrame (text : Bytes) : IsReply text (SkBuff.ofFrame (udpFrame text)) where
  linear := rfl
  protocol := by rw [SkBuff.ofFrame, udpFrame, getD_append _ _ _ _ (by decide)]; decide
  port := by rw [SkBuff.ofFrame, udpFrame, be16At_append _ _ _ (by decide)]; decide
  text_eq := drop_left' (by decide)

/-! ### How the parsers read these texts -/

variable (key : Bytes)

/-- The hashing loop of the update program stops behind the key a reply names. -/
theorem replyKey_named (rest : Bytes) (hlen : key.length ≤ bmcMaxKeyLength) (hsp : space ∉ key) :
    replyKey (valueWord ++ key ++ space :: rest) = key := by
  have hall : ∀ b ∈ key, (b != space) = true := by
    intro b hb
    simpa using fun h : b = space => hsp (h ▸ hb)
  have hdrop : (valueWord ++ key ++ space :: rest).drop 6 = key ++ space :: rest := by
    rw [append_assoc, drop_append_of_le_length (by decide)]
    rfl
  rw [replyKey, hdrop, take_append, take_of_length_le hlen]
  cases hn : bmcMaxKeyLength - key.length with
  | zero => rw [take_zero, append_nil, takeWhile_eq_self_iff.mpr hall]
  | succ n => rw [take_succ_cons, takeWhile_append_of_pos hall, takeWhile_cons, if_neg (by simp),
      append_nil]

def valueLine (key flags : Bytes) (n : ℕ) : Bytes :=
  valueWord ++ key ++ (space :: flags ++ space :: itoa n ++ [cr])

variable (flags value : Bytes)

theorem valueBlock_eq :
    valueBlock key flags value = valueLine key flags value.length ++ lf :: (value ++ crlf) := by
  simp [valueBlock, valueLine, makeAsciiGetSuffix, crlf]

theorem valueBlock_named : ∃ rest, valueBlock key flags value = valueWord ++ key ++ space :: rest := by
  rw [valueBlock_eq]
  exact ⟨flags ++ space :: itoa value.length ++ [cr] ++ lf :: (value ++ crlf), by simp [valueLine]⟩

theorem lf_notMem_valueLine (n : ℕ) (hkey : lf ∉ key) (hflags : lf ∉ flags) :
    lf ∉ valueLine key flags n := by
  have hv : lf ∉ valueWord := by decide
  have hn := itoa_notMem n (c := lf) (by decide)
  have hs : lf ≠ space := by decide
  have hc : lf ≠ cr := by decide
  simp [valueLine, hkey, hflags, hv, hn, hs, hc]

/-- **What the copy loop takes of a reply**: the first line whole, then everything up to the first `'\n'` of the
data or, when the data has none, the block to its end. -/
theorem replyPart_valueBlock (rest : Bytes) (hkey : lf ∉ key) (hflags : lf ∉ flags)
    (hfit : (valueBlock key flags value).length ≤ bmcMaxCacheDataSize) :
    replyPart (valueBlock key flags value ++ rest) =
      valueLine key flags value.length ++ lf :: takeThrough lf 1 (value ++ crlf) := by
  have hline := lf_notMem_valueLine key flags value.length hkey hflags
  rw [replyPart, take_append, take_of_length_le hfit, valueBlock_eq, append_assoc, cons_append,
    takeThrough_line lf 1 _ _ hline]
  -- the second line ends inside the block, so what follows the block is not reached
  rw [takeThrough_one_append lf _ _ (by simp [crlf])]

theorem replyPart_block (rest : Bytes) (hkey : lf ∉ key) (hflags : lf ∉ flags)
    (hvalue : lf ∉ value) (hfit : (valueBlock key flags value).length ≤ bmcMaxCacheDataSize) :
    replyPart (valueBlock key flags value ++ rest) = valueBlock key flags value := by
  have hcr : lf ∉ value ++ [cr] := by
    have hc : lf ≠ cr := by decide
    simp [hvalue, hc]
  have hsplit : value ++ crlf = (value ++ [cr]) ++ lf :: [] := by simp [crlf]
  rw [replyPart_valueBlock key flags value rest hkey hflags hfit, valueBlock_eq, hsplit,
    takeThrough_line lf 0 _ [] hcr, takeThrough_zero]

theorem replyPart_cut (rest : Bytes) (hkey : lf ∉ key) (hflags : lf ∉ flags)
    (hvalue : lf ∈ value) (hfit : (valueBlock key flags value).length ≤ bmcMaxCacheDataSize) :
    (replyPart (valueBlock key flags value ++ rest)).length < (valueBlock key flags value).length := by
  rw [replyPart_valueBlock key flags value rest hkey hflags hfit, valueBlock_eq,
    takeThrough_one_append lf value crlf hvalue, length_append, length_append, length_cons,
    length_cons, length_append]
  have hle := (takeThrough_isFront lf value 1).length_le
  have hpos : crlf.length = 2 := rfl
  omega

/-- The part of a reply that is taken names the key and has two lines, whatever the data is. -/
theorem replyPart_valueBlock_named (rest : Bytes) (hkey : lf ∉ key) (hflags : lf ∉ flags)
    (hfit : (valueBlock key flags value).length ≤ bmcMaxCacheDataSize) :
    (∃ text, replyPart (valueBlock key flags value ++ rest) = valueWord ++ key ++ space :: text) ∧
      (replyPart (valueBlock key flags value ++ rest)).count lf = 2 := by
  rw [replyPart_valueBlock key flags value rest hkey hflags hfit]
  refine ⟨⟨flags ++ space :: itoa value.length ++ [cr] ++ lf :: takeThrough lf 1 (value ++ crlf),
    by simp [valueLine]⟩, ?_⟩
  have hmem : lf ∈ value ++ crlf := by simp [crlf]
  obtain ⟨a, b, hab, hnot⟩ := eq_append_cons_of_mem hmem
  rw [hab, takeThrough_line lf 0 a b hnot, takeThrough_zero, count_append, count_cons_self,
    count_append, count_cons_self, count_nil, count_eq_zero_of_not_mem hnot,
    count_eq_zero_of_not_mem (lf_notMem_valueLine key flags value.length hkey hflags)]

/-- The scanner finds the key of a `set` command at the front of a segment. -/
theorem scanKeys_setText (rest : Bytes) :
    scanKeys .search 0 (setWord ++ k.bytes ++ space :: rest) = k.bytes :: scanKeys .search 0 rest := by
  rw [append_assoc]
  exact scanKeys_set k.bytes k.ne_nil
    (fun b hb => ⟨k.ne_of_not_plain hb (by decide), k.ne_of_not_plain hb (by decide)⟩) _ rest

theorem cr_notMem_intercalate (ks : List Key) : cr ∉ [space].intercalate (ks.map Key.bytes) := by
  induction ks with
  | nil => simp
  | cons k ks ih =>
    cases ks with
    | nil => simpa using k.cr_notMem
    | cons k' ks' =>
      have hs : cr ≠ space := by decide
      rw [map_cons, intercalate_cons_of_ne_nil (by simp)]
      simp only [mem_append, mem_singleton, not_or]
      exact ⟨⟨k.cr_notMem, hs⟩, ih⟩

section

variable {ks : List Key} {pkt : Bytes}

theorem IsGetOf.isGetFrame (h : IsGetOf ks pkt) : IsGetFrame pkt := by
  obtain ⟨rest, htext⟩ := h.text
  have hlen := congrArg length htext
  have hword : getText ks ++ rest = getWord ++ ([space].intercalate (ks.map Key.bytes) ++ crlf ++ rest) := by
    simp [getText]
  rw [length_drop, hword, length_append, show getWord.length = 4 from rfl] at hlen
  refine ⟨by simp at hlen; omega, h.protocol, h.port, ?_⟩
  rw [htext, hword, take_append_of_le_length (by decide)]
  rfl

/-- Behind the keyword: the keys, the line end, and whatever follows. -/
theorem IsGetOf.drop_text (h : IsGetOf ks pkt) :
    ∃ rest, pkt.drop 54 = [space].intercalate (ks.map Key.bytes) ++ cr :: rest := by
  obtain ⟨rest, htext⟩ := h.text
  refine ⟨lf :: rest, ?_⟩
  rw [← drop_headers_getWord, htext, getText, append_assoc, append_assoc,
    drop_append_of_le_length (by decide)]
  simp [getWord, crlf]

theorem IsGetOf.keysOffset_eq (h : IsGetOf ks pkt) (hne : ks ≠ []) : keysOffset pkt = 4 := by
  obtain ⟨rest, htext⟩ := h.drop_text
  obtain ⟨k, ks', rfl⟩ := exists_cons_of_ne_nil hne
  obtain ⟨b, bs, hk⟩ := exists_cons_of_ne_nil k.ne_nil
  have hb : b ≠ space := k.ne_of_not_plain (by rw [hk]; simp) (by decide)
  have hhead : ∃ tail, [space].intercalate ((k :: ks').map Key.bytes) = b :: tail := by
    cases ks' with
    | nil => exact ⟨bs, by simp [hk]⟩
    | cons k' ks' =>
      rw [map_cons, intercalate_cons_of_ne_nil (by simp), hk]
      exact ⟨_, rfl⟩
  obtain ⟨tail, htail⟩ := hhead
  rw [keysOffset, htext, htail]
  exact skipSpaces_of_ne 4 b _ hb

theorem IsGetOf.keyBytes_eq (h : IsGetOf ks pkt) (hne : ks ≠ []) : keyBytes pkt = pkt.drop 54 := by
  rw [keyBytes, h.keysOffset_eq hne]
  rfl

/-- **The words of the request are its keys.** -/
theorem IsGetOf.requestWords_eq (h : IsGetOf ks pkt) (hne : ks ≠ []) :
    requestWords (keyBytes pkt) = ks.map Key.bytes := by
  obtain ⟨rest, htext⟩ := h.drop_text
  have hall : ∀ b ∈ [space].intercalate (ks.map Key.bytes), (b != cr) = true := by
    intro b hb
    simpa using fun hbc : b = cr => cr_notMem_intercalate ks (hbc ▸ hb)
  rw [h.keyBytes_eq hne, htext, requestWords, takeWhile_append_of_pos hall, takeWhile_cons,
    if_neg (by simp), append_nil]
  apply splitOn_intercalate
  · intro l hl
    obtain ⟨k, -, rfl⟩ := mem_map.mp hl
    exact k.space_notMem
  · simpa using hne

end

end BmcCache
