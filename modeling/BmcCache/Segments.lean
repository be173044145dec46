import BmcCache.Memcached

/-!
# Segments with several commands

A TCP segment can hold any number of commands, and its header can have options, which the scanner reads as if they
were payload.  Wherever the letters `set` stand, in an option, in a key or in data, the scanner believes it has
found a command and takes what follows for a key; a real `set` it meets meanwhile is lost.

* `Taken` — which words the scanner takes, read off the bytes: behind the first `set` and one more byte, up to the
  next space, and then the same again in what follows;
* `mem_scanKeys_iff` — these are the words `scanKeys` returns;
* `segment_invalidates_iff` — when every key set in a segment is invalidated.
-/

namespace BmcCache

open List

/-! ### The words a scan takes -/

/-- In `pre` followed by the letters `set` they do not occur earlier. -/
def FirstSet (pre : Bytes) : Prop := ¬ setLetters <:+: pre ++ [115, 101]

instance (pre : Bytes) : Decidable (FirstSet pre) :=
  inferInstanceAs (Decidable (¬ setLetters <:+: pre ++ [115, 101]))

structure IsTakenWord (w : Bytes) : Prop where
  ne_nil : w ≠ []
  head_ne : w.head? ≠ some cr
  no_space : space ∉ w

/-- The word `v` is taken from the given bytes.  Behind the first `set` one byte is skipped, and then spaces; the word
up to the next space is taken, unless a carriage return stands there, and the search goes on behind it. -/
inductive Taken (v : Bytes) : Bytes → Prop
  | word (pre rest : Bytes) (x : UInt8) (n : ℕ) (hpre : FirstSet pre) (hv : IsTakenWord v) :
    Taken v (pre ++ setLetters ++ x :: (replicate n space ++ (v ++ space :: rest)))
  | next (pre w rest : Bytes) (x : UInt8) (n : ℕ) (hpre : FirstSet pre) (hw : IsTakenWord w)
    (h : Taken v rest) : Taken v (pre ++ setLetters ++ x :: (replicate n space ++ (w ++ space :: rest)))
  | blank (pre rest : Bytes) (x : UInt8) (n : ℕ) (hpre : FirstSet pre) (h : Taken v rest) :
    Taken v (pre ++ setLetters ++ x :: (replicate n space ++ cr :: rest))

theorem scanKeys_firstSet (pre l : Bytes) (h : FirstSet pre) :
    scanKeys .search 0 (pre ++ setLetters ++ l) = scanKeys .keyStart 1 l := by
  induction pre with
  | nil =>
    rw [nil_append, setLetters, cons_append, scanKeys, if_pos ⟨rfl, rfl⟩]
    rfl
  | cons b pre ih =>
    have hno : ¬ (b = 115 ∧ (pre ++ setLetters ++ l).take 2 = [101, 116]) := by
      intro hcase
      obtain ⟨rfl, htake⟩ := hcase
      have hlong : setLetters <+: 115 :: (pre ++ setLetters ++ l) :=
        ⟨(pre ++ setLetters ++ l).drop 2, by
          conv_rhs => rw [← take_append_drop 2 (pre ++ setLetters ++ l), htake]
          rfl⟩
      have hshort : 115 :: pre ++ [115, 101] <+: 115 :: (pre ++ setLetters ++ l) := ⟨116 :: l, by simp [setLetters]⟩
      exact h (prefix_of_prefix_length_le hlong hshort (by simp [setLetters])).isInfix
    rw [cons_append, cons_append, scanKeys, if_neg hno]
    exact ih fun hin => h (infix_cons hin)

theorem scanKeys_spaces (n : ℕ) (l : Bytes) :
    scanKeys .keyStart 0 (replicate n space ++ l) = scanKeys .keyStart 0 l := by
  induction n with
  | zero => rfl
  | succ n ih => rw [replicate_succ, cons_append, scanKeys, if_pos rfl, ih]

section

variable {pre : Bytes} (hpre : FirstSet pre) (x : UInt8) (n : ℕ) (rest : Bytes)

include hpre

theorem scanKeys_word {w : Bytes} (hw : IsTakenWord w) :
    scanKeys .search 0 (pre ++ setLetters ++ x :: (replicate n space ++ (w ++ space :: rest)))
      = w :: scanKeys .search 0 rest := by
  obtain ⟨b, w, rfl⟩ := exists_cons_of_ne_nil hw.ne_nil
  have hsp : b ≠ space := fun hb => hw.no_space (by simp [hb])
  have hcr : b ≠ cr := fun hb => hw.head_ne (by simp [hb])
  rw [scanKeys_firstSet pre _ hpre, scanKeys, scanKeys_spaces, cons_append, scanKeys, if_neg hsp, if_neg hcr,
    scanKeys_inKey w (fun c hc hcs => hw.no_space (by simp [← hcs, hc]))]
  rfl

theorem scanKeys_blank :
    scanKeys .search 0 (pre ++ setLetters ++ x :: (replicate n space ++ cr :: rest))
      = scanKeys .search 0 rest := by
  rw [scanKeys_firstSet pre _ hpre, scanKeys, scanKeys_spaces, scanKeys, if_neg (by decide), if_pos rfl]

end

theorem scanKeys_inKey_none (l : Bytes) (h : space ∉ l) : ∀ w, scanKeys (.inKey w) 0 l = [] := by
  induction l with
  | nil => intro w; rfl
  | cons b l ih =>
    intro w
    have hb : b ≠ space := fun hb => h (by simp [hb])
    rw [scanKeys, if_neg hb]
    exact ih (fun hin => h (mem_cons_of_mem b hin)) _

theorem exists_firstSet (l : Bytes) (h : setLetters <:+: l) :
    ∃ pre rest, FirstSet pre ∧ l = pre ++ setLetters ++ rest := by
  induction l with
  | nil => exact absurd h (by decide)
  | cons b l ih =>
    by_cases hhere : setLetters <+: b :: l
    · obtain ⟨rest, hrest⟩ := hhere
      exact ⟨[], rest, by decide, hrest.symm⟩
    · have hlater : setLetters <:+: l := (infix_cons_iff.mp h).resolve_left hhere
      obtain ⟨pre, rest, hfirst, rfl⟩ := ih hlater
      refine ⟨b :: pre, rest, fun hin => ?_, by simp⟩
      rw [cons_append, infix_cons_iff] at hin
      rcases hin with hfront | hin
      · exact hhere (hfront.trans ⟨116 :: rest, by simp [setLetters]⟩)
      · exact hfirst hin

/-- What stands behind a `set` is a word with a space behind it, a carriage return, or neither. -/
theorem keyStart_cases (l : Bytes) :
    (∃ n w rest, IsTakenWord w ∧ l = replicate n space ++ (w ++ space :: rest)) ∨
      (∃ n rest, l = replicate n space ++ cr :: rest) ∨ scanKeys .keyStart 0 l = [] := by
  induction l with
  | nil => exact Or.inr (Or.inr rfl)
  | cons b l ih =>
    by_cases hsp : b = space
    · subst hsp
      rcases ih with ⟨n, w, rest, hw, rfl⟩ | ⟨n, rest, rfl⟩ | hnone
      · exact Or.inl ⟨n + 1, w, rest, hw, rfl⟩
      · exact Or.inr (Or.inl ⟨n + 1, rest, rfl⟩)
      · exact Or.inr (Or.inr (by rw [scanKeys, if_pos rfl, hnone]))
    · by_cases hcr : b = cr
      · exact Or.inr (Or.inl ⟨0, l, by simp [hcr]⟩)
      · by_cases hin : space ∈ l
        · obtain ⟨w, rest, rfl, hw⟩ := eq_append_cons_of_mem hin
          exact Or.inl ⟨0, b :: w, rest, ⟨by simp, by simpa using hcr, by simp [hw, Ne.symm hsp]⟩, rfl⟩
        · refine Or.inr (Or.inr ?_)
          rw [scanKeys, if_neg hsp, if_neg hcr]
          exact scanKeys_inKey_none l hin _

/-- **The scanner takes exactly these words.**  From right to left the induction is on the length of what is left. -/
theorem mem_scanKeys_iff (v l : Bytes) : v ∈ scanKeys .search 0 l ↔ Taken v l := by
  constructor
  · induction hlen : l.length using Nat.strong_induction_on generalizing l with
    | _ m ih =>
      intro hmem
      by_cases hset : setLetters <:+: l
      · obtain ⟨pre, tail, hpre, rfl⟩ := exists_firstSet l hset
        cases tail with
        | nil => rw [scanKeys_firstSet pre _ hpre] at hmem; exact absurd hmem not_mem_nil
        | cons x tail =>
          simp only [length_append, length_cons] at hlen
          rcases keyStart_cases tail with ⟨n, w, rest, hw, rfl⟩ | ⟨n, rest, rfl⟩ | hnone
          · rw [scanKeys_word hpre x n rest hw] at hmem
            simp only [length_append, length_cons] at hlen
            rcases mem_cons.mp hmem with rfl | hrest
            · exact Taken.word pre rest x n hpre hw
            · exact Taken.next pre w rest x n hpre hw (ih rest.length (by omega) rest rfl hrest)
          · rw [scanKeys_blank hpre x n rest] at hmem
            simp only [length_append, length_cons] at hlen
            exact Taken.blank pre rest x n hpre (ih rest.length (by omega) rest rfl hmem)
          · rw [scanKeys_firstSet pre _ hpre, scanKeys, hnone] at hmem
            exact absurd hmem not_mem_nil
      · rw [scanKeys_search_none l hset] at hmem
        exact absurd hmem not_mem_nil
  · intro h
    induction h with
    | word pre rest x n hpre hv => rw [scanKeys_word hpre x n rest hv]; exact mem_cons_self
    | next pre w rest x n hpre hw h ih => rw [scanKeys_word hpre x n rest hw]; exact mem_cons_of_mem w ih
    | blank pre rest x n hpre h ih => rw [scanKeys_blank hpre x n rest]; exact ih

/-! ### Segments -/

inductive SegmentCommand where
  | get (ks : List Key)
  | set (k : Key) (flags exptime value : Bytes)

def SegmentCommand.text : SegmentCommand → Bytes
  | .get ks => getText ks
  | .set k flags exptime value => setText k.bytes flags exptime value

def segmentText (cmds : List SegmentCommand) : Bytes := cmds.flatMap SegmentCommand.text

def setKeys (cmds : List SegmentCommand) : List Key :=
  cmds.filterMap fun
    | .get _ => none
    | .set k _ _ _ => some k

/-- A TCP segment to the server with the given header options and text. -/
structure IsSegmentWith (options text pkt : Bytes) : Prop where
  protocol : pkt.getD 23 0 = ipprotoTcp
  port : be16At pkt 36 = memcachedPort
  dataOffset : (pkt.getD 46 0).toNat / 16 * 4 = sizeofTcphdr + options.length
  text_eq : pkt.drop (sizeofEthhdr + sizeofIphdr + sizeofTcphdr) = options ++ text

theorem isSegmentWith_tcpFrame (text : Bytes) : IsSegmentWith [] text (tcpFrame text) where
  protocol := (isSegment_tcpFrame text).protocol
  port := (isSegment_tcpFrame text).port
  dataOffset := by rw [tcpFrame, getD_append _ _ _ _ (by decide)]; decide
  text_eq := (isSegment_tcpFrame text).text_eq

/-- The entries that are valid behind the program: those that were, unless a word with their slot has been taken. -/
theorem invalidateCache_valid_iff (s : XdpState) (hash : UInt32) :
    ((bmcInvalidateCacheMain s).1.kcache.entryAt hash).valid = true ↔ (s.kcache.entryAt hash).valid = true ∧
      ∀ w, Taken w (scannedBytes s.ctx.packet) → cacheIdx (fnv1a w) ≠ cacheIdx hash := by
  obtain ⟨stats, hspec⟩ := invalidateCache_spec s
  simp only [hspec, KCache.entryAt, invalidateKeys_entry, ← mem_scanKeys_iff]
  split
  · rename_i htaken
    obtain ⟨w, hw, hslot⟩ := htaken
    exact ⟨fun hv => absurd hv (by simp [BmcCacheEntry.invalidate]), fun h => absurd hslot (h.2 w hw)⟩
  · rename_i hnone
    exact ⟨fun hv => ⟨hv, fun w hw hslot => hnone ⟨w, hw, hslot⟩⟩, fun h => h.1⟩

/-- **When a segment invalidates what it sets.**  Behind `bmc_invalidate_cache` the entries of all keys set in the
segment are not valid exactly if every one of them that was valid has the slot of a word taken from the options and
the text. -/
theorem segment_invalidates_iff (options : Bytes) (cmds : List SegmentCommand) (s : XdpState)
    (hseg : IsSegmentWith options (segmentText cmds) s.ctx.packet) :
    (∀ k ∈ setKeys cmds, ((bmcInvalidateCacheMain s).1.kcache.entryAt (fnv1a k.bytes)).valid = false) ↔
      ∀ k ∈ setKeys cmds, (s.kcache.entryAt (fnv1a k.bytes)).valid = true →
        ∃ w, Taken w ((options ++ segmentText cmds).take bmcMaxPacketLength) ∧
          cacheIdx (fnv1a w) = cacheIdx (fnv1a k.bytes) := by
  rw [← hseg.text_eq, ← scannedBytes]
  refine forall₂_congr fun k _ => ?_
  rw [← Bool.not_eq_true, invalidateCache_valid_iff, not_and]
  refine imp_congr_right fun _ => ?_
  push Not
  rfl

/-- `get a` and a `set` of the cached key behind it. -/
theorem segment_invalidates_behind_get :
    let k := Key.ofBytes [97, 98, 99, 100, 101, 102, 103, 104, 105, 106, 107, 108] (by decide)
    let a := Key.ofBytes [97] (by decide)
    let cmds : List SegmentCommand := [.get [a], .set k [48] [48] [121]]
    let s := XdpState.received (updateKCache KCache.zeroed (valueBlock k.bytes [48] [120] ++ endLine))
      (tcpFrame (segmentText cmds))
    (s.kcache.entryAt (fnv1a k.bytes)).valid = true ∧
      ∀ k' ∈ setKeys cmds, ((bmcInvalidateCacheMain s).1.kcache.entryAt (fnv1a k'.bytes)).valid = false := by
  intro k a cmds s
  refine ⟨by decide +kernel, (segment_invalidates_iff [] cmds s (isSegmentWith_tcpFrame _)).mpr ?_⟩
  intro k' hk' _
  obtain rfl := mem_singleton.mp hk'
  refine ⟨k.bytes, ?_, rfl⟩
  exact Taken.word (getText [a]) _ space 0 (by decide) ⟨by decide, by decide, by decide⟩

/-- `get reset` and a `set` of the cached key behind it: the scanner takes `\nset` for a key, and the entry stays
valid. -/
theorem segment_set_lost :
    let k := Key.ofBytes [97, 98, 99, 100, 101, 102, 103, 104, 105, 106, 107, 108] (by decide)
    let reset := Key.ofBytes [114, 101, 115, 101, 116] (by decide)
    let cmds : List SegmentCommand := [.get [reset], .set k [48] [48] [121]]
    let s := XdpState.received (updateKCache KCache.zeroed (valueBlock k.bytes [48] [120] ++ endLine))
      (tcpFrame (segmentText cmds))
    IsSegmentWith [] (segmentText cmds) s.ctx.packet ∧ k ∈ setKeys cmds ∧
      ((bmcInvalidateCacheMain s).1.kcache.entryAt (fnv1a k.bytes)).valid = true := by
  intro k reset cmds s
  exact ⟨isSegmentWith_tcpFrame _, by decide, by decide +kernel⟩

end BmcCache
