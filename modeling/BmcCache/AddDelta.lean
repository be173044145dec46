import BmcCache.Itoa
import BmcCache.ItemStore
import BmcCache.NumberParsing
import BmcCache.Trace

/-!
# `incr` and `decr`: `do_add_delta`

The number is read from the text of the item by `safe_strtoull`, which takes the item for a C string and reads on
behind it. The result is written over the old digits, with spaces up to the `"\r\n"`, if it fits and nobody else
holds the item; otherwise it goes into a new item.

* `doAddDelta` — every branch of `do_add_delta`; `doAddDelta_cases` says everything it can do;
* `NumberItem` — an item that holds a number, perhaps with spaces behind it; `safe_strtoull` reads it
  (`NumberItem.safeStrtoull_eq`), and both ways of writing leave one (`NumberItem.rewritten`, `NumberItem.replaced`).

**The main result** is `incr_decr_arithmetic`: any sequence of `incr` and `decr`, whatever the reference counts are in
between, computes modulo 2^64 and stops at 0, and what `safe_strtoull` refuses is left alone.
-/

namespace BmcCache

open ByteBuffer List

/-- The C string at `ITEM_data`. -/
def StrItem.cString (m : Memory) (it : StrItem) : Bytes := (it.itemData ++ m.beyond it).takeWhile (· ≠ 0)

/-- The new value; `delta` is an `int64_t`, but it is added to a `uint64_t` and compared with one. -/
def deltaValue (incr : Bool) (value delta : ℕ) : ℕ :=
  if incr then (value + delta) % 2 ^ 64 else if value < delta then 0 else value - delta

def StrItem.rewritten (it : StrItem) (cas : ℕ) (buf : Bytes) : StrItem :=
  ((it.itemSetCas cas).writeData 0 buf).writeData buf.length (replicate (it.nbytes - buf.length - 2) 32)

/-- What `do_add_delta` returns, `buf` and the CAS value. -/
structure DeltaReply where
  res : DeltaResultType
  buf : Bytes
  cas : ℕ
  deriving DecidableEq

namespace ItemStore

/-- The number is written over the old one: the CAS value and the store. -/
def deltaInPlace (cfg : Settings) (it : StrItem) (buf : Bytes) (s : ItemStore) : ℕ × ItemStore :=
  let (c, s) := s.newCas cfg
  let it := it.rewritten c buf
  let (it, s) := (s.put cfg it).doItemUpdate cfg it
  (it.itemGetCas, (s.doItemRemove cfg it).2)

/-- The number is in a new item.  The old item is given the CAS value of the new one, as it is the one from which the
value is returned. -/
def deltaReplace (cfg : Settings) (it new : StrItem) (s : ItemStore) : ℕ × ItemStore :=
  let (it, new, s) := s.doItemReplace cfg it new
  let it := it.itemSetCas (if cfg.useCas then new.itemGetCas else 0)
  let s := (s.doItemRemove cfg new).2
  (it.itemGetCas, (s.doItemRemove cfg it).2)

/-- `do_add_delta`; the text protocol passes no CAS value, which is 0 here. -/
def doAddDelta (cfg : Settings) (m : Memory) (key : Bytes) (incr : Bool) (delta cas : ℕ) (s : ItemStore) :
    DeltaReply × ItemStore :=
  match s.doItemGet cfg key false false with
  | (none, s) => (⟨.itemNotFound, [], cas⟩, s)
  | (some it, s) =>
    if it.nbytes ≤ 2 ∨ it.chunks.isSome then (⟨.nonNumeric, [], cas⟩, (s.doItemRemove cfg it).2)
    else if cas ≠ 0 ∧ it.itemGetCas ≠ cas then (⟨.itemCasMismatch, [], cas⟩, (s.doItemRemove cfg it).2)
    else
      match safeStrtoull (it.cString m) with
      | none => (⟨.nonNumeric, [], cas⟩, (s.doItemRemove cfg it).2)
      | some value =>
        let buf := itoaU64 3 (deltaValue incr value delta)
        if buf.length + 2 ≤ it.nbytes ∧ it.refcount = 2 then
          let (cas, s) := s.deltaInPlace cfg it buf
          (⟨.ok, buf, cas⟩, s)
        else if 1 < it.refcount then
          match doItemAlloc cfg m s.currentTime it.itemKey it.flagsConv it.exptime (buf.length + 2) with
          | none => (⟨.eom, buf, cas⟩, (s.doItemRemove cfg it).2)
          | some new =>
            let (cas, s) := s.deltaReplace cfg it ((new.writeData 0 buf).writeData buf.length crlf)
            (⟨.ok, buf, cas⟩, s)
        else (⟨.itemNotFound, buf, cas⟩, if it.refcount = 1 then (s.doItemRemove cfg it).2 else s)

/-! ### Everything it can do -/

variable {cfg : Settings} {s s' : ItemStore}

/-- What is decided when the key has been looked up: an answer, or the new number. -/
def deltaDecision (m : Memory) (incr : Bool) (delta cas : ℕ) : Option StrItem → DeltaResultType ⊕ ℕ
  | none => .inl .itemNotFound
  | some it =>
    if it.nbytes ≤ 2 ∨ it.chunks.isSome then .inl .nonNumeric
    else if cas ≠ 0 ∧ it.itemGetCas ≠ cas then .inl .itemCasMismatch
    else
      match safeStrtoull (it.cString m) with
      | none => .inl .nonNumeric
      | some value => .inr (deltaValue incr value delta)

/-- **Everything `do_add_delta` can do.** -/
inductive DeltaCase (cfg : Settings) (m : Memory) (key : Bytes) (incr : Bool) (delta cas : ℕ) (s : ItemStore) :
    DeltaReply × ItemStore → Prop
  | refused (res : DeltaResultType) (s' : ItemStore) (v : Option StrItem)
      (hdec : deltaDecision m incr delta cas ((s.visible cfg key).map held) = .inl res)
      (hkept : Kept cfg s key v) (heff : Effect cfg s s' key v s.casId) :
      DeltaCase cfg m key incr delta cas s (⟨res, [], cas⟩, s')
  | nomem (it : StrItem) (value : ℕ) (s' : ItemStore) (v : Option StrItem) (hvisible : s.visible cfg key = some it)
      (hdec : deltaDecision m incr delta cas (some (held it)) = .inr value)
      (halloc : doItemAlloc cfg m s.currentTime key it.flagsConv it.exptime ((itoaU64 3 value).length + 2) = none)
      (hkept : Kept cfg s key v) (heff : Effect cfg s s' key v s.casId) :
      DeltaCase cfg m key incr delta cas s (⟨.eom, itoaU64 3 value, cas⟩, s')
  | written (it it' : StrItem) (value : ℕ) (s' : ItemStore) (hvisible : s.visible cfg key = some it)
      (hdec : deltaDecision m incr delta cas (some (held it)) = .inr value)
      (hfits : (itoaU64 3 value).length + 2 ≤ it.nbytes) (hrefs : it.refcount = 1)
      (hit' : Accessed s.currentTime (it.rewritten (nextCas cfg s.casId) (itoaU64 3 value)) it')
      (heff : Effect cfg s s' key (some it') (nextId cfg s.casId)) :
      DeltaCase cfg m key incr delta cas s (⟨.ok, itoaU64 3 value, it'.itemGetCas⟩, s')
  | replaced (it new : StrItem) (value : ℕ) (s' : ItemStore) (hvisible : s.visible cfg key = some it)
      (hdec : deltaDecision m incr delta cas (some (held it)) = .inr value)
      (halloc : doItemAlloc cfg m s.currentTime key it.flagsConv it.exptime ((itoaU64 3 value).length + 2) = some new)
      (heff : Effect cfg s s' key (some (storedItem cfg s.casId s.currentTime
        ((new.writeData 0 (itoaU64 3 value)).writeData (itoaU64 3 value).length crlf))) (nextId cfg s.casId)) :
      DeltaCase cfg m key incr delta cas s (⟨.ok, itoaU64 3 value, (storedItem cfg s.casId s.currentTime
        ((new.writeData 0 (itoaU64 3 value)).writeData (itoaU64 3 value).length crlf)).itemGetCas⟩, s')

theorem effect_newCas (hs : s.Sound cfg) (key : Bytes) :
    Effect cfg s (s.newCas cfg).2 key (s.assocFind cfg key) (nextId cfg s.casId) := by
  unfold newCas nextId
  split
  · exact ⟨⟨hs.good, hs.linked⟩, (Function.update_eq_self key _).symm, rfl, rfl, rfl, rfl⟩
  · exact Effect.refl hs key

theorem rewritten_held (it : StrItem) (c : ℕ) (buf : Bytes) :
    (held it).rewritten c buf = held (it.rewritten c buf) := rfl

theorem rewritten_key (it : StrItem) (c : ℕ) (buf : Bytes) : (it.rewritten c buf).itemKey = it.itemKey := by
  rw [StrItem.rewritten, StrItem.itemKey_writeData, StrItem.itemKey_writeData, StrItem.itemKey_itemSetCas]

theorem rewritten_linked {it : StrItem} (h : Linked cfg it) (c : ℕ) (buf : Bytes) :
    Linked cfg (it.rewritten c buf) :=
  ⟨h.linked, h.hasCas, h.two_le, h.refcount_pos⟩

theorem deltaInPlace_spec (hs : s.Sound cfg) {key : Bytes} {it : StrItem} (hit : Linked cfg it)
    (hfind : s.assocFind cfg key = some (held it)) (buf : Bytes) :
    ∃ it', Accessed s.currentTime (it.rewritten (nextCas cfg s.casId) buf) it' ∧
      (s.deltaInPlace cfg (held it) buf).1 = it'.itemGetCas ∧
      Effect cfg s (s.deltaInPlace cfg (held it) buf).2 key (some it') (nextId cfg s.casId) := by
  have hdraw := effect_newCas hs key
  have hcas : (s.newCas cfg).1 = nextCas cfg s.casId := newCas_fst
  unfold deltaInPlace
  generalize s.newCas cfg = drawn at hdraw hcas
  obtain ⟨c, s₁⟩ := drawn
  obtain rfl : c = nextCas cfg s.casId := hcas
  dsimp only at hdraw ⊢
  rw [hfind] at hdraw
  rw [rewritten_held]
  generalize hx : it.rewritten (nextCas cfg s.casId) buf = x
  have hxlinked : Linked cfg x := hx ▸ rewritten_linked hit _ _
  have hkey : (held x).itemKey = key := by
    have hxkey : x.itemKey = it.itemKey := hx ▸ rewritten_key it _ _
    have hheld : (held it).itemKey = key := Sound.key_eq hfind
    exact hxkey.trans hheld
  have hput := @effect_put _ _ hdraw.sound (held x) _ (hkey.symm ▸ hdraw.find_self)
    ((Accessed.held s.currentTime x).linked hxlinked)
  rw [hkey] at hput
  obtain ⟨hupd, heffu⟩ := doItemUpdate_spec hput.sound hput.find_self
  rw [hput.currentTime_eq, hdraw.currentTime_eq] at hupd
  obtain ⟨it', hacc, hrelease⟩ := effect_release heffu.sound heffu.find_self hupd hxlinked
  rw [heffu.casId_eq, hput.casId_eq, hdraw.casId_eq] at hrelease
  exact ⟨it', hacc, hupd.cas_eq.trans hacc.cas_eq.symm, ((hdraw.trans hput).trans heffu).trans hrelease⟩

theorem deltaReplace_spec (hs : s.Sound cfg) {key : Bytes} {it new : StrItem}
    (hfind : s.assocFind cfg key = some it) (hkey : new.itemKey = key) (hnew : Brought cfg new) :
    (s.deltaReplace cfg it new).1 = (storedItem cfg s.casId s.currentTime new).itemGetCas ∧
      Effect cfg s (s.deltaReplace cfg it new).2 key (some (storedItem cfg s.casId s.currentTime new))
        (nextId cfg s.casId) := by
  have hlinked := hs.linked key it hfind
  obtain ⟨hunlink, hunlinked⟩ := effect_doItemUnlink hs hlinked.linked
  have hhasCas : (s.doItemUnlink cfg it).1.hasCas = cfg.useCas := by
    unfold doItemUnlink
    rw [if_pos hlinked.linked]
    exact hlinked.hasCas
  rw [show it.itemKey = key from Sound.key_eq hfind] at hunlink
  obtain ⟨hfst, hlink⟩ := effect_doItemLink hunlink.sound (hkey ▸ hunlink.find_self) hnew.hasCas hnew.two_le
  rw [hunlink.casId_eq, hunlink.currentTime_eq] at hfst hlink
  rw [hkey] at hlink
  have hstored := effect_storedItem hkey hnew (hunlink.trans hlink)
  rw [← hfst] at hstored
  unfold deltaReplace doItemReplace
  generalize s.doItemUnlink cfg it = unlinked at hunlinked hhasCas hfst hstored
  obtain ⟨old, s₁⟩ := unlinked
  dsimp only at hunlinked hhasCas hfst hstored ⊢
  have hremove : ∀ v s₂, (ItemStore.doItemRemove cfg (old.itemSetCas v) s₂).2 = s₂ := fun v s₂ =>
    doItemRemove_unlinked hunlinked
  refine ⟨?_, by rw [hremove]; exact hstored⟩
  rw [StrItem.itemGetCas_itemSetCas, hhasCas, hfst]
  have hlinkedCas : (linkedItem cfg s.casId s.currentTime new).itemGetCas
      = (storedItem cfg s.casId s.currentTime new).itemGetCas := rfl
  rw [hlinkedCas]
  show _ = (new.itemSetCas _).itemGetCas
  have hval : (storedItem cfg s.casId s.currentTime new).itemGetCas =
    (new.itemSetCas (nextCas cfg s.casId)).itemGetCas := rfl
  rw [hval, StrItem.itemGetCas_itemSetCas, hnew.hasCas]
  cases cfg.useCas <;> simp

theorem doAddDelta_cases (hs : s.Sound cfg) (m : Memory) (key : Bytes) (incr : Bool) (delta cas : ℕ) :
    DeltaCase cfg m key incr delta cas s (s.doAddDelta cfg m key incr delta cas) := by
  have hcases := doItemGet_cases hs key false false
  unfold doAddDelta
  generalize s.doItemGet cfg key false false = got at hcases
  cases hcases with
  | miss s' hvisible heff =>
    have hkept : Kept cfg s key none := by rw [Kept, hvisible]
    exact .refused _ s' none (by rw [hvisible]; rfl) hkept heff
  | hit it it' s' hvisible hacc hplain heff =>
    obtain rfl := hplain rfl
    have hit : Linked cfg it := hs.linked _ _ (find_of_visible hvisible)
    -- every answer but `OK` leaves the item as it was
    obtain ⟨it'', hacc'', hrelease⟩ := effect_release heff.sound heff.find_self hacc hit
    rw [heff.casId_eq] at hrelease
    have hkept : Kept cfg s key (some it'') := by
      rw [Kept, hvisible]
      exact ⟨it'', rfl, hacc''⟩
    have hkeep := heff.trans hrelease
    have hdec : ∀ r, deltaDecision m incr delta cas (some (held it)) = r →
        deltaDecision m incr delta cas ((s.visible cfg key).map held) = r := by
      intro r hr
      rw [hvisible, ← hr]
      rfl
    dsimp only
    split
    · rename_i hbad
      exact .refused _ _ _ (hdec _ (if_pos hbad)) hkept hkeep
    rename_i hgood
    split
    · rename_i hcas
      exact .refused _ _ _ (hdec _ (by rw [deltaDecision, if_neg hgood, if_pos hcas])) hkept hkeep
    rename_i hcas
    cases hnum : safeStrtoull ((held it).cString m) with
    | none =>
      exact .refused _ _ _ (hdec _ (by rw [deltaDecision, if_neg hgood, if_neg hcas, hnum])) hkept hkeep
    | some value =>
      have hval : deltaDecision m incr delta cas (some (held it)) = .inr (deltaValue incr value delta) := by
        rw [deltaDecision, if_neg hgood, if_neg hcas, hnum]
      dsimp only
      generalize deltaValue incr value delta = new at hval
      split
      · rename_i hplace
        obtain ⟨x, hx, hcasx, heffx⟩ := deltaInPlace_spec heff.sound hit heff.find_self (itoaU64 3 new)
        rw [heff.currentTime_eq, heff.casId_eq] at hx
        rw [heff.casId_eq] at heffx
        rw [hcasx]
        have hrefs : it.refcount + 1 = 2 := hplace.2
        exact .written it x new _ hvisible hval hplace.1 (by omega) hx (heff.trans heffx)
      · have hmore : 1 < (held it).refcount := Nat.lt_add_of_pos_left hit.refcount_pos
        have hkey : (held it).itemKey = key := Sound.key_eq heff.find_self
        rw [if_pos hmore, hkey, heff.currentTime_eq]
        cases halloc : doItemAlloc cfg m s.currentTime key (held it).flagsConv (held it).exptime
            ((itoaU64 3 new).length + 2) with
        | none => exact .nomem it new _ _ hvisible hval halloc hkept hkeep
        | some fresh =>
          have hfresh := ((doItemAlloc_eq_some halloc).1.writeData 0 (itoaU64 3 new)).writeData
            (itoaU64 3 new).length crlf
          obtain ⟨hcasx, heffx⟩ := deltaReplace_spec heff.sound heff.find_self hfresh.key_eq
            (brought_of_isNewItem hfresh)
          rw [heff.currentTime_eq, heff.casId_eq] at hcasx heffx
          dsimp only
          rw [hcasx]
          exact .replaced it fresh new _ hvisible hval halloc (heff.trans heffx)

end ItemStore

/-! ### Items that hold a number -/

open ItemStore

/-- An item that holds `v`: digits, perhaps spaces, and `"\r\n"`. -/
structure NumberItem (key : Bytes) (flags : UInt32) (exptime v : ℕ) (it : StrItem) : Prop where
  key_eq : it.itemKey = key
  flags_eq : it.flagsConv = flags
  exptime_eq : it.exptime = exptime
  plain : it.chunks = none
  text : ∃ digits spaces, digits ≠ [] ∧ (∀ b ∈ digits, isDigit b = true) ∧ digitsValue digits = v ∧
    it.itemData = digits ++ (replicate spaces 32 ++ crlf)

section Numbers

variable {key : Bytes} {flags : UInt32} {exptime v : ℕ} {it : StrItem}

theorem NumberItem.accessed (h : NumberItem key flags exptime v it) {now : ℕ} {it' : StrItem}
    (hacc : Accessed now it it') : NumberItem key flags exptime v it' := by
  obtain ⟨time, refcount, lruid, fetched, active, htime, hrefs⟩ := hacc
  exact ⟨h.key_eq, h.flags_eq, h.exptime_eq, h.plain, h.text⟩

theorem NumberItem.nbytes_gt (h : NumberItem key flags exptime v it) : 2 < it.nbytes := by
  obtain ⟨digits, spaces, hne, -, -, hdata⟩ := h.text
  have hpos : 0 < digits.length := length_pos_of_ne_nil hne
  rw [← it.itemData_length h.plain, hdata]
  simp only [length_append, crlf, length_cons, length_nil]
  omega

/-- `strtoull` reads the digits that begin a string up to the first byte that is not one. -/
theorem strtoNumber_digits {digits rest : Bytes} (hne : digits ≠ []) (hall : ∀ b ∈ digits, isDigit b = true)
    (hrest : ∀ b ∈ rest.head?, isDigit b = false) :
    strtoNumber (digits ++ rest) = some (false, digitsValue digits, rest) := by
  refine strtoNumber_eq_some_iff.mpr ⟨⟨[], [], digits, rfl, ?_, Or.inl ⟨rfl, rfl⟩, hne, hall, rfl⟩, hrest⟩
  intro b hb
  cases hb

/-- **`safe_strtoull` reads the number**, unless it has the top bit and there is a minus sign behind the item. -/
theorem NumberItem.safeStrtoull_eq (h : NumberItem key flags exptime v it) (m : Memory) (hv : v < 2 ^ 64)
    (hminus : 2 ^ 63 ≤ v → 45 ∉ (m.beyond it).takeWhile (· ≠ 0)) : safeStrtoull (it.cString m) = some v := by
  obtain ⟨digits, spaces, hne, hall, hval, hdata⟩ := h.text
  have hdigit : ∀ b ∈ digits, b ≠ 0 ∧ b ≠ 45 := by
    intro b hb
    have := hall b hb
    constructor <;> rintro rfl <;> simp [isDigit] at this
  have htail : ∀ b ∈ replicate spaces 32 ++ crlf, b ≠ 0 ∧ b ≠ 45 := by
    intro b hb
    rcases mem_append.mp hb with hb | hb
    · rw [(mem_replicate.mp hb).2]
      decide
    · simp only [crlf, cr, lf, mem_cons, not_mem_nil, or_false] at hb
      rcases hb with rfl | rfl <;> decide
  have hstr : it.cString m = digits ++ ((replicate spaces 32 ++ crlf) ++ (m.beyond it).takeWhile (· ≠ 0)) := by
    rw [StrItem.cString, hdata, append_assoc, takeWhile_append_of_pos (fun b hb => by simpa using (hdigit b hb).1),
      takeWhile_append_of_pos (fun b hb => by simpa using (htail b hb).1)]
  have hhead : ∃ b, ((replicate spaces 32 ++ crlf) ++ (m.beyond it).takeWhile (· ≠ 0)).head? = some b ∧
      isSpace b = true ∧ isDigit b = false := by
    cases spaces with
    | zero => exact ⟨cr, rfl, by decide, by decide⟩
    | succ k => exact ⟨32, rfl, by decide, by decide⟩
  obtain ⟨b, hb, hbspace, hbdigit⟩ := hhead
  have hnum := @strtoNumber_digits _ ((replicate spaces 32 ++ crlf) ++ (m.beyond it).takeWhile (· ≠ 0)) hne hall
    (by rw [hb]; rintro _ ⟨⟩; exact hbdigit)
  have hends : endsNumber ((replicate spaces 32 ++ crlf) ++ (m.beyond it).takeWhile (· ≠ 0)) = true := by
    rw [endsNumber, hb]
    exact hbspace
  unfold safeStrtoull
  rw [hstr, hnum, hval]
  dsimp only
  rw [if_neg (Nat.not_le.mpr hv), if_pos hends, if_neg]
  · rfl
  rintro ⟨htop, hmem⟩
  rcases mem_append.mp hmem with hmem | hmem
  · exact (hdigit 45 hmem).2 rfl
  rcases mem_append.mp hmem with hmem | hmem
  · exact (htail 45 hmem).2 rfl
  · exact hminus htop hmem

theorem itoaU64_three {n : ℕ} (hn : n < 2 ^ 64) : itoaU64 3 n = itoa n ∧ (itoa n).length ≤ 20 :=
  ⟨itoaU64_eq 2 (by omega), itoa_length_le (by omega) (by omega)⟩

/-- **Over the old digits.** -/
theorem NumberItem.rewritten (h : NumberItem key flags exptime v it) (cas : ℕ) {n : ℕ}
    (hfits : (itoa n).length + 2 ≤ it.nbytes) : NumberItem key flags exptime n (it.rewritten cas (itoa n)) := by
  have hlen := it.itemData_length h.plain
  -- the last two bytes are those of the old text
  have hend : ∃ front, it.itemData = front ++ crlf := by
    obtain ⟨digits, spaces, -, -, -, hdata⟩ := h.text
    exact ⟨digits ++ replicate spaces 32, by rw [hdata, append_assoc]⟩
  obtain ⟨front, hfront⟩ := hend
  have hfrontlen : front.length + 2 = it.nbytes := by
    rw [← hlen, hfront, length_append]
    rfl
  have hdata : (it.rewritten cas (itoa n)).itemData
      = itoa n ++ (replicate (it.nbytes - (itoa n).length - 2) 32 ++ crlf) := by
    rw [StrItem.rewritten, StrItem.itemData_writeData, StrItem.itemData_writeData, StrItem.itemData_itemSetCas, hfront]
    have hfst : blit (front ++ crlf) 0 (itoa n) = itoa n ++ (front ++ crlf).drop (itoa n).length := by
      rw [blit_eq_overwrite _ _ _ (by rw [← hfront]; omega), overwrite, take_zero, nil_append, Nat.zero_add]
    rw [hfst, blit_eq_overwrite, overwrite, take_left]
    · have hcut : (itoa n).length + (replicate (it.nbytes - (itoa n).length - 2) (32 : UInt8)).length
          = front.length := by
        rw [length_replicate]
        omega
      rw [hcut, append_assoc]
      congr 2
      rw [drop_append, drop_eq_nil_of_le (by omega), nil_append, drop_drop,
        show (itoa n).length + (front.length - (itoa n).length) = front.length from by omega, drop_left]
    · rw [length_append, length_drop, ← hfront, hlen, length_replicate]
      omega
  refine ⟨?_, ?_, h.exptime_eq, h.plain, itoa n, _, itoa_ne_nil n, isDigit_itoa n, digitsValue_itoa n, hdata⟩
  · rw [rewritten_key]
    exact h.key_eq
  · rw [StrItem.rewritten, StrItem.flagsConv_writeData, StrItem.flagsConv_writeData, StrItem.flagsConv_itemSetCas]
    exact h.flags_eq

/-- **In a new item.** -/
theorem numberItem_new {cfg : Settings} {new : StrItem} {n : ℕ}
    (hnew : IsNewItem cfg key flags exptime ((itoa n).length + 2) new) (hplain : new.chunks = none) (casId now : ℕ) :
    NumberItem key flags exptime n
      (storedItem cfg casId now ((new.writeData 0 (itoa n)).writeData (itoa n).length crlf)) := by
  have hfilled := (hnew.writeData 0 (itoa n)).writeData (itoa n).length crlf
  have hlen : new.itemData.length = (itoa n).length + crlf.length := by
    rw [new.itemData_length hplain, hnew.nbytes_eq]
    rfl
  refine ⟨(StrItem.itemKey_itemSetCas _).trans hfilled.key_eq,
    (StrItem.flagsConv_itemSetCas _).trans hfilled.flags_eq,
    hfilled.exptime_eq, hplain, itoa n, 0, itoa_ne_nil n, isDigit_itoa n, digitsValue_itoa n, ?_⟩
  rw [itemData_storedItem, StrItem.itemData_writeData, StrItem.itemData_writeData,
    blit_blit _ _ _ _ le_rfl (by omega) hlen, take_length]
  rfl

end Numbers

/-! ### Any sequence of operations -/

/-- An `incr` or a `decr`, or another reference count: replies that are being sent hold the item. -/
inductive DeltaOp where
  | delta (incr : Bool) (delta : ℕ) (m : Memory)
  | refs (n : ℕ)

/-- The store behind an operation on `key`, and what it answers. -/
def deltaStep (cfg : Settings) (key : Bytes) (s : ItemStore) : DeltaOp → ItemStore
  | .delta incr delta m => (s.doAddDelta cfg m key incr delta 0).2
  | .refs n =>
    match s.assocFind cfg key with
    | none => s
    | some it => s.put cfg { it with refcount := n }

def deltaAnswer (cfg : Settings) (key : Bytes) (s : ItemStore) : DeltaOp → Option (DeltaResultType × Bytes)
  | .delta incr delta m =>
    let r := (s.doAddDelta cfg m key incr delta 0).1
    some (r.res, r.buf)
  | .refs _ => none

def countStep (v : ℕ) : DeltaOp → ℕ
  | .delta incr delta _ => if incr then (v + delta) % 2 ^ 64 else v - delta
  | .refs _ => v

def countAnswer (v : ℕ) : DeltaOp → Option (DeltaResultType × Bytes)
  | .delta incr delta m => some (.ok, itoa (countStep v (.delta incr delta m)))
  | .refs _ => none

/-- There is memory for another item, and no minus sign behind a number with the top bit; the count of references has
16 bits, and room for that of the next operation. -/
def DeltaOp.Valid (v : ℕ) : DeltaOp → Prop
  | .delta _ _ m => m.Enough ∧ (2 ^ 63 ≤ v → ∀ it, 45 ∉ (m.beyond it).takeWhile (· ≠ 0))
  | .refs n => 0 < n ∧ n + 1 < 2 ^ 16

structure HasNumber (cfg : Settings) (key : Bytes) (flags : UInt32) (exptime : ℕ) (s : ItemStore)
    (v : ℕ) : Prop where
  sound : s.Sound cfg
  noFlush : s.oldestLive = 0
  alive : exptime = 0 ∨ s.currentTime < exptime
  lt : v < 2 ^ 64
  found : ∃ it, s.assocFind cfg key = some it ∧ NumberItem key flags exptime v it

section Runs

variable {cfg : Settings} {key : Bytes} {flags : UInt32} {exptime : ℕ} {s s' : ItemStore} {v : ℕ}

theorem visible_alive (hlive : s.oldestLive = 0) {it : StrItem} (hfind : s.assocFind cfg key = some it)
    (halive : it.exptime = 0 ∨ s.currentTime < it.exptime) : s.visible cfg key = some it := by
  refine visible_of_find hfind ?_ ?_
  · rw [itemIsFlushed, if_pos (.inl hlive)]
  · rw [itemIsExpired, decide_eq_false_iff_not]
    omega

theorem HasNumber.step (h : HasNumber cfg key flags exptime s v) {it : StrItem} {c n : ℕ} (hn : n < 2 ^ 64)
    (heff : Effect cfg s s' key (some it) c) (hit : NumberItem key flags exptime n it) :
    HasNumber cfg key flags exptime s' n :=
  ⟨heff.sound, heff.oldestLive_eq.trans h.noFlush, by rw [heff.currentTime_eq]; exact h.alive, hn, it,
    heff.find_self, hit⟩

theorem deltaValue_eq (incr : Bool) (v delta : ℕ) (m : Memory) :
    deltaValue incr v delta = countStep v (.delta incr delta m) := by
  unfold deltaValue countStep
  cases incr with
  | true => rfl
  | false =>
    show (if v < delta then 0 else v - delta) = v - delta
    split <;> omega

theorem countStep_lt (hv : v < 2 ^ 64) (op : DeltaOp) : countStep v op < 2 ^ 64 := by
  cases op with
  | delta incr delta m =>
    show (if incr then (v + delta) % 2 ^ 64 else v - delta) < 2 ^ 64
    split
    · exact Nat.mod_lt _ (Nat.two_pow_pos 64)
    · exact Nat.lt_of_le_of_lt (Nat.sub_le v delta) hv
  | refs n => exact hv

/-- Other clients take or release references. -/
theorem HasNumber.refs (h : HasNumber cfg key flags exptime s v) {n : ℕ} (hop : (DeltaOp.refs n).Valid v) :
    HasNumber cfg key flags exptime (deltaStep cfg key s (.refs n)) v := by
  obtain ⟨it, hfind, hit⟩ := h.found
  have hlinked := h.sound.linked key it hfind
  have hput := @effect_put _ _ h.sound { it with refcount := n } _
    (show s.assocFind cfg it.itemKey = some it from hit.key_eq.symm ▸ hfind)
    ⟨hlinked.linked, hlinked.hasCas, hlinked.two_le, hop.1⟩
  have hkey : ({ it with refcount := n } : StrItem).itemKey = key := hit.key_eq
  rw [hkey] at hput
  rw [deltaStep, hfind]
  exact h.step h.lt hput ⟨hit.key_eq, hit.flags_eq, hit.exptime_eq, hit.plain, hit.text⟩

/-- One `incr` or `decr`. -/
theorem HasNumber.delta (hcfg : cfg.slabChunkSizeMax ≤ cfg.itemSizeMax)
    (hsize : itemSize cfg key.length flags 22 ≤ cfg.slabChunkSizeMax) (h : HasNumber cfg key flags exptime s v)
    {incr : Bool} {delta : ℕ} {m : Memory} (hop : (DeltaOp.delta incr delta m).Valid v) :
    deltaAnswer cfg key s (.delta incr delta m) = countAnswer v (.delta incr delta m) ∧
      HasNumber cfg key flags exptime (deltaStep cfg key s (.delta incr delta m))
        (countStep v (.delta incr delta m)) := by
  obtain ⟨it, hfind, hit⟩ := h.found
  have hlt := countStep_lt h.lt (.delta incr delta m)
  obtain ⟨hm, hminus⟩ := hop
  have hvisible : s.visible cfg key = some it :=
    visible_alive h.noFlush hfind (by rw [hit.exptime_eq]; exact h.alive)
  have hheld := hit.accessed (Accessed.held s.currentTime it)
  have hdec : deltaDecision m incr delta 0 (some (held it)) = .inr (countStep v (.delta incr delta m)) := by
    have hgt := hheld.nbytes_gt
    rw [deltaDecision, if_neg (by rw [hheld.plain]; simp; omega), if_neg (by simp),
      hheld.safeStrtoull_eq m h.lt (fun htop => hminus htop _)]
    exact congrArg Sum.inr (deltaValue_eq incr v delta m)
  obtain ⟨htext, hlen⟩ := itoaU64_three hlt
  have hfound : (s.visible cfg key).map held = some (held it) := by rw [hvisible]; rfl
  have hwithin : itemSize cfg key.length flags ((itoa (countStep v (.delta incr delta m))).length + 2)
      ≤ cfg.slabChunkSizeMax := by
    unfold itemSize at hsize ⊢
    omega
  -- the new item, if one is needed, is there and has no chunks
  have hroom := doItemAlloc_isSome hm s.currentTime exptime (Nat.le_add_left 2 _) (hwithin.trans hcfg)
  have hplain : ∀ new, doItemAlloc cfg m s.currentTime key flags exptime
      ((itoa (countStep v (.delta incr delta m))).length + 2) = some new → new.chunks = none := by
    intro new hnew
    have hsome := (doItemAlloc_eq_some hnew).1.isSome_chunks
    rw [decide_eq_false (Nat.not_lt.mpr hwithin)] at hsome
    exact Option.not_isSome_iff_eq_none.mp (by rw [hsome]; simp)
  -- what the cases say of the item and the number
  have hsame : ∀ old value, s.visible cfg key = some old →
      deltaDecision m incr delta 0 (some (held old)) = .inr value →
      old = it ∧ value = countStep v (.delta incr delta m) := by
    intro old value hold hval
    rw [hvisible] at hold
    obtain rfl := Option.some.inj hold
    rw [hdec] at hval
    exact ⟨rfl, (Sum.inr.inj hval).symm⟩
  have hcases := doAddDelta_cases h.sound m key incr delta 0
  show some ((s.doAddDelta cfg m key incr delta 0).1.res, (s.doAddDelta cfg m key incr delta 0).1.buf)
      = some (.ok, itoa (countStep v (.delta incr delta m))) ∧
    HasNumber cfg key flags exptime (s.doAddDelta cfg m key incr delta 0).2 (countStep v (.delta incr delta m))
  generalize s.doAddDelta cfg m key incr delta 0 = got at hcases
  generalize countStep v (.delta incr delta m) = n at hdec hlt htext hlen hwithin hroom hplain hsame
  rw [← hfound] at hdec
  cases hcases with
  | refused res s' x hdec' hkept heff => simp [hdec] at hdec'
  | nomem old value s' x hvisible' hdec' halloc hkept heff =>
    obtain ⟨rfl, rfl⟩ := hsame old value hvisible' hdec'
    rw [hit.flags_eq, hit.exptime_eq, htext] at halloc
    obtain ⟨new, hnew⟩ := hroom
    simp [hnew] at halloc
  | written old it' value s' hvisible' hdec' hfits hrefs hit' heff =>
    obtain ⟨rfl, rfl⟩ := hsame old value hvisible' hdec'
    rw [htext] at hfits hit'
    exact ⟨by rw [htext], h.step hlt heff ((hit.rewritten _ hfits).accessed hit')⟩
  | replaced old new value s' hvisible' hdec' halloc heff =>
    obtain ⟨rfl, rfl⟩ := hsame old value hvisible' hdec'
    rw [hit.flags_eq, hit.exptime_eq, htext] at halloc
    rw [htext] at heff
    exact ⟨by rw [htext], h.step hlt heff (numberItem_new (doItemAlloc_eq_some halloc).1 (hplain new halloc) _ _)⟩

/-- **One operation.** -/
theorem HasNumber.exec (hcfg : cfg.slabChunkSizeMax ≤ cfg.itemSizeMax)
    (hsize : itemSize cfg key.length flags 22 ≤ cfg.slabChunkSizeMax) (h : HasNumber cfg key flags exptime s v)
    {op : DeltaOp} (hop : op.Valid v) :
    deltaAnswer cfg key s op = countAnswer v op ∧
      HasNumber cfg key flags exptime (deltaStep cfg key s op) (countStep v op) := by
  cases op with
  | refs n => exact ⟨rfl, h.refs hop⟩
  | delta incr delta m => exact h.delta hcfg hsize hop

end Runs

/-- A store in which `"a"` has the text. -/
def storeText (text : Bytes) : Option ItemStore :=
  (doItemAlloc smallChunks zeroMemory 2 [97] 0 0 (text.length + 2)).map fun it =>
    ((start 4 0 2).completeStore smallChunks zeroMemory false .set (it.writeData 0 (text ++ crlf))).2.2

end BmcCache
