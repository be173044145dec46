import BmcCache.ChainTable
import BmcCache.LinkedPath
import BmcCache.Common
import Mathlib.Data.List.Perm.Subperm
import Mathlib.Data.Nat.Bitwise

/-!
# `assoc.c`: the hash table in memory

The table is an array of pointers to items; the items of a bucket are linked by `h_next`.  While the table is expanding
there are two arrays, and the maintenance thread moves one bucket at a time by relinking its items.

* `assocFind`, `assocInsert`, `assocDelete`, `assocExpand`, `migrateBucket` — the functions, on a memory of link
  fields;
* `Represents` — the memory holds a `ChainTable`, each bucket as a path; every function does on it what the
  operation of `ChainTable` does (`Represents.insert`, `.delete`, `.expand`, `.migrate`);
* `assoc_finite_map` — what this means for whole runs.

A walk along a chain has a bound on its steps; it is never reached.
-/

namespace BmcCache

open LinkedPath Function List

/-! ### The functions -/

/-- `hashsize`: `(ub4)1<<(n)` -/
def hashsize (n : ℕ) : ℕ := 2 ^ n % 2 ^ 32

def hashmask (n : ℕ) : ℕ := (hashsize n + 2 ^ 32 - 1) % 2 ^ 32

/-- The two arrays with their variables, and of each item its key and its link. -/
structure AssocState where
  key : ℕ → Bytes
  hNext : ℕ → Option ℕ
  primaryHashtable : ℕ → Option ℕ
  oldHashtable : ℕ → Option ℕ
  hashpower : ℕ
  expanding : Bool
  expandBucket : ℕ

inductive AssocCell where
  | primary (bucket : ℕ)
  | old (bucket : ℕ)
  | next (it : ℕ)
  deriving DecidableEq, Repr

namespace AssocState

def assocInit (hashpower : ℕ) : AssocState where
  key := fun _ => []
  hNext := fun _ => none
  primaryHashtable := fun _ => none
  oldHashtable := fun _ => none
  hashpower := hashpower
  expanding := false
  expandBucket := 0

def read (st : AssocState) : AssocCell → Option ℕ
  | .primary bucket => st.primaryHashtable bucket
  | .old bucket => st.oldHashtable bucket
  | .next it => st.hNext it

def write (st : AssocState) (v : Option ℕ) : AssocCell → AssocState
  | .primary bucket => { st with primaryHashtable := update st.primaryHashtable bucket v }
  | .old bucket => { st with oldHashtable := update st.oldHashtable bucket v }
  | .next it => { st with hNext := update st.hNext it v }

/-- The bucket of a hash value: `if (expanding && (oldbucket = (hv & hashmask(hashpower - 1))) >= expand_bucket)`. -/
def bucketCell (st : AssocState) (hv : ℕ) : AssocCell :=
  if st.expanding = true ∧ st.expandBucket ≤ hv &&& hashmask (st.hashpower - 1) then
    .old (hv &&& hashmask (st.hashpower - 1))
  else .primary (hv &&& hashmask st.hashpower)

def assocFind (st : AssocState) (fuel : ℕ) (key : Bytes) (hv : ℕ) : Option (Option ℕ) :=
  search st.hNext (fun it => decide (key = st.key it)) fuel (st.read (st.bucketCell hv))

/-- The loop of `_hashitem_before` -/
def hashitemBefore (st : AssocState) (key : Bytes) (fuel : ℕ) (pos : AssocCell) : Option AssocCell :=
  match st.read pos with
  | none => some pos
  | some it =>
    if key ≠ st.key it then
      match fuel with
      | 0 => none
      | fuel + 1 => hashitemBefore st key fuel (.next it)
    else some pos

/-- `assoc_expand`; its `calloc` may fail. -/
def assocExpand (st : AssocState) (calloc : Bool) : AssocState :=
  let st := { st with oldHashtable := st.primaryHashtable }
  if calloc then
    { st with primaryHashtable := fun _ => none, hashpower := st.hashpower + 1, expanding := true, expandBucket := 0 }
  else { st with primaryHashtable := st.oldHashtable }

def assocInsert (st : AssocState) (it hv : ℕ) : AssocState :=
  let cell := st.bucketCell hv
  { st with hNext := update st.hNext it (st.read cell) }.write (some it) cell

def assocDelete (st : AssocState) (fuel : ℕ) (key : Bytes) (hv : ℕ) : Option AssocState :=
  match st.hashitemBefore key fuel (st.bucketCell hv) with
  | none => none
  | some before =>
    match st.read before with
    | none => some st
    | some it =>
      let nxt := st.hNext it
      some ({ st with hNext := update st.hNext it none }.write nxt before)

/-- The loop of `assoc_maintenance_thread` over the items of a bucket -/
def migrateLoop (hash : Bytes → ℕ) : ℕ → Option ℕ → AssocState → Option AssocState
  | _, none, st => some st
  | 0, some _, _ => none
  | fuel + 1, some it, st =>
    let next := st.hNext it
    let bucket := hash (st.key it) &&& hashmask st.hashpower
    let st := { st with hNext := update st.hNext it (st.primaryHashtable bucket) }
    migrateLoop hash fuel next
      { st with primaryHashtable := update st.primaryHashtable bucket (some it) }

/-- `assoc_maintenance_thread` moves a bucket when it has got the lock. -/
def migrateBucket (hash : Bytes → ℕ) (fuel : ℕ) (st : AssocState) : Option AssocState :=
  match migrateLoop hash fuel (st.oldHashtable st.expandBucket) st with
  | none => none
  | some st =>
    let st := { st with oldHashtable := update st.oldHashtable st.expandBucket none,
                        expandBucket := st.expandBucket + 1 }
    some (if st.expandBucket = hashsize (st.hashpower - 1) then { st with expanding := false } else st)

end AssocState

/-! ### Runs -/

inductive AssocEvent where
  /-- an item is written, with its key, and inserted -/
  | insert (it : ℕ) (key : Bytes)
  | delete (key : Bytes)
  | expand (calloc : Bool)
  | migrate
  deriving DecidableEq, Repr

/-- One event; the maintenance thread expands the table only when it is not expanding, and moves a bucket only when
it is. -/
def AssocState.assocStep (hash : Bytes → ℕ) (fuel : ℕ) (st : AssocState) : AssocEvent → Option AssocState
  | .insert it key => some ({ st with key := update st.key it key }.assocInsert it (hash key))
  | .delete key => st.assocDelete fuel key (hash key)
  | .expand calloc => some (if st.expanding then st else st.assocExpand calloc)
  | .migrate => if st.expanding then st.migrateBucket hash fuel else some st

/-- **What the table is for**: the item last inserted and not deleted under each key. -/
def AssocEvent.onMap (m : Bytes → Option ℕ) : AssocEvent → (Bytes → Option ℕ)
  | .insert it key => update m key (some it)
  | .delete key => update m key none
  | .expand _ | .migrate => m

/-- An item is inserted under a key that is not present, and is not in the table; only a present key is deleted; the
table is expanded below the power 31. -/
def AssocEvent.Allowed (st : AssocState) (m : Bytes → Option ℕ) : AssocEvent → Prop
  | .insert it key => m key = none ∧ ∀ k, m k ≠ some it
  | .delete key => m key ≠ none
  | .expand _ => st.hashpower < 31
  | .migrate => True

/-! ### Masks -/

theorem hashsize_eq {n : ℕ} (hn : n ≤ 31) : hashsize n = 2 ^ n := by
  have hlt : 2 ^ n < 2 ^ 32 := Nat.pow_lt_pow_right (by decide) (by omega)
  exact Nat.mod_eq_of_lt hlt

theorem and_hashmask {n : ℕ} (hn : n ≤ 31) (hv : ℕ) : hv &&& hashmask n = hv % 2 ^ n := by
  have hlt : 2 ^ n < 2 ^ 32 := Nat.pow_lt_pow_right (by decide) (by omega)
  have hpos : 0 < 2 ^ n := Nat.two_pow_pos n
  have hmask : hashmask n = 2 ^ n - 1 := by
    rw [hashmask, hashsize_eq hn]
    omega
  rw [hmask, Nat.and_two_pow_sub_one_eq_mod]

/-! ### The table in memory -/

namespace AssocState

variable {hash : Bytes → ℕ} {st : AssocState} {t : ChainTable (ℕ × Bytes)}

/-- From the pointer `p` the items `l` are linked, each with its key. -/
def Holds (st : AssocState) (p : Option ℕ) (l : List (ℕ × Bytes)) : Prop :=
  Path st.hNext p (l.map Prod.fst) ∧ ∀ x ∈ l, st.key x.1 = x.2

theorem Holds.congr {st' : AssocState} {p : Option ℕ} {l : List (ℕ × Bytes)} (h : st.Holds p l)
    (hframe : ∀ x ∈ l, st'.hNext x.1 = st.hNext x.1 ∧ st'.key x.1 = st.key x.1) : st'.Holds p l := by
  refine ⟨h.1.congr fun a ha => ?_, fun x hx => (hframe x hx).2.trans (h.2 x hx)⟩
  obtain ⟨x, hx, rfl⟩ := mem_map.mp ha
  exact (hframe x hx).1

/-- **The memory holds the table**, each bucket of its two arrays as a path. -/
structure Represents (hash : Bytes → ℕ) (st : AssocState) (t : ChainTable (ℕ × Bytes)) : Prop where
  power_eq : st.hashpower = t.power
  expanding_eq : st.expanding = t.expanding
  bucket_eq : st.expandBucket = t.expandBucket
  power_le : t.power ≤ 31
  good : t.Good Prod.snd hash
  moved : t.expanding = true → ∀ b < t.expandBucket, t.old b = []
  primary : ∀ b, st.Holds (st.primaryHashtable b) (t.primary b)
  old : t.expanding = true → ∀ b, st.Holds (st.oldHashtable b) (t.old b)

theorem represents_init (hash : Bytes → ℕ) {power : ℕ} (hpower : power ≤ 31) :
    Represents hash (assocInit power) (ChainTable.empty power) where
  power_eq := rfl
  expanding_eq := rfl
  bucket_eq := rfl
  power_le := hpower
  good := ChainTable.good_empty power
  moved := fun h => nomatch h
  primary := fun _ => ⟨rfl, fun _ hx => nomatch hx⟩
  old := fun h => nomatch h

theorem Represents.mem_primary (h : Represents hash st t) {b : ℕ} {x : ℕ × Bytes} (hx : x ∈ t.primary b) :
    ¬t.InOld (hash x.2) ∧ x ∈ t.chain (hash x.2) := by
  have hnot : ¬t.InOld (hash x.2) := fun hin => absurd hin.2 (h.good.primary_moved hin.1 b x hx).not_ge
  rw [ChainTable.chain, if_neg hnot, h.good.primary_hash b x hx]
  exact ⟨hnot, hx⟩

theorem Represents.mem_old (h : Represents hash st t) (hexp : t.expanding = true) {b : ℕ} {x : ℕ × Bytes}
    (hx : x ∈ t.old b) : t.InOld (hash x.2) ∧ x ∈ t.chain (hash x.2) := by
  have hhash := h.good.old_hash hexp b x hx
  have hin : t.InOld (hash x.2) := by
    refine ⟨hexp, ?_⟩
    by_contra hlt
    rw [h.moved hexp b (by omega)] at hx
    cases hx
  rw [ChainTable.chain, if_pos hin, hhash]
  exact ⟨hin, hx⟩

theorem Represents.bucketCell_eq (h : Represents hash st t) (hv : ℕ) :
    st.bucketCell hv =
      if t.InOld hv then .old (hv % 2 ^ (t.power - 1)) else .primary (hv % 2 ^ t.power) := by
  have hle := h.power_le
  rw [bucketCell, h.power_eq, h.expanding_eq, h.bucket_eq, and_hashmask hle, and_hashmask (by omega)]
  rfl

theorem Represents.bucket (h : Represents hash st t) (hv : ℕ) : st.Holds (st.read (st.bucketCell hv))
    (t.chain hv) := by
  rw [h.bucketCell_eq, ChainTable.chain]
  split
  · rename_i hin
    exact h.old hin.1 _
  · exact h.primary _

/-! ### Finding -/

theorem find?_fst_eq {l : List (ℕ × Bytes)} (hl : ∀ x ∈ l, st.key x.1 = x.2) (key : Bytes) :
    (l.map Prod.fst).find? (fun it => decide (key = st.key it)) =
      (l.find? fun x => decide (x.2 = key)).map Prod.fst := by
  rw [find?_map]
  congr 1
  induction l with
  | nil => rfl
  | cons x l ih =>
    rw [find?_cons, find?_cons, ih fun y hy => hl y (mem_cons_of_mem _ hy)]
    simp only [comp_apply, hl x mem_cons_self, eq_comm]

variable {fuel : ℕ} {key : Bytes}

/-- **`assoc_find`** -/
theorem Represents.find (h : Represents hash st t) (key : Bytes)
    (hfuel : (t.chain (hash key)).length ≤ fuel) :
    st.assocFind fuel key (hash key) = some ((t.find Prod.snd hash key).map Prod.fst) := by
  obtain ⟨hpath, hkeys⟩ := h.bucket (hash key)
  rw [assocFind, hpath.search _ (by rwa [length_map]), find?_fst_eq hkeys]
  rfl

/-! ### One bucket is replaced -/

/-- Another chain in the place of the one of a hash value; the link fields of the others are as they were. -/
theorem Represents.setChain (h : Represents hash st t) (hv : ℕ) (l : List (ℕ × Bytes))
    (key : ℕ → Bytes)
    (hNext : ℕ → Option ℕ) (p : Option ℕ) (hl : ∀ x ∈ l, t.SameChain hv (hash x.2))
    (hnodup : (l.map Prod.snd).Nodup)
    (hpath : Path hNext p (l.map Prod.fst)) (hkeys : ∀ x ∈ l, key x.1 = x.2)
    (hframe : ∀ x ∈ t.chain (hash x.2), ¬t.SameChain hv (hash x.2) → hNext x.1 = st.hNext x.1 ∧
      key x.1 = st.key x.1) :
    Represents hash ({ st with key := key, hNext := hNext }.write p (st.bucketCell hv)) (t.setChain hv l) := by
  have hgood := h.good.setChain hl hnodup
  rw [h.bucketCell_eq]
  by_cases hold : t.InOld hv
  · rw [if_pos hold]
    rw [ChainTable.setChain, if_pos hold] at hgood ⊢
    refine ⟨h.power_eq, h.expanding_eq, h.bucket_eq, h.power_le, hgood, fun hexp b hb => ?_, fun b => ?_,
      fun hexp b => ?_⟩
    · have hne : b ≠ hv % 2 ^ (t.power - 1) := fun heq => absurd hold.2 (heq ▸ hb).not_ge
      exact (update_of_ne hne _ _).trans (h.moved hexp b hb)
    · refine (h.primary b).congr fun x hx => ?_
      obtain ⟨hnot, hmem⟩ := h.mem_primary hx
      exact hframe x hmem fun hsame => hnot (hsame.inOld.mpr hold)
    · by_cases hb : b = hv % 2 ^ (t.power - 1)
      · subst hb
        simp only [write, update_self]
        exact ⟨hpath, hkeys⟩
      · simp only [write, update_of_ne hb]
        refine (h.old hexp b).congr fun x hx => ?_
        have hhash := h.good.old_hash hexp b x hx
        refine hframe x (h.mem_old hexp hx).2 fun hsame => hb ?_
        rw [ChainTable.SameChain, if_pos hold] at hsame
        rw [← hhash, hsame]
  · rw [if_neg hold]
    rw [ChainTable.setChain, if_neg hold] at hgood ⊢
    refine ⟨h.power_eq, h.expanding_eq, h.bucket_eq, h.power_le, hgood, h.moved, fun b => ?_, fun hexp b => ?_⟩
    · by_cases hb : b = hv % 2 ^ t.power
      · subst hb
        simp only [write, update_self]
        exact ⟨hpath, hkeys⟩
      · simp only [write, update_of_ne hb]
        refine (h.primary b).congr fun x hx => ?_
        have hhash := h.good.primary_hash b x hx
        refine hframe x (h.mem_primary hx).2 fun hsame => hb ?_
        rw [ChainTable.SameChain, if_neg hold] at hsame
        rw [← hhash, hsame]
    · refine (h.old hexp b).congr fun x hx => ?_
      obtain ⟨hin, hmem⟩ := h.mem_old hexp hx
      exact hframe x hmem fun hsame => hold (hsame.inOld.mp hin)

/-! ### Inserting -/

/-- **`assoc_insert`** of an item that is not in the table, under a key that is not present. -/
theorem Represents.insert (h : Represents hash st t) {it : ℕ}
    (habsent : t.find Prod.snd hash key = none) (hfresh : ∀ x ∈ t.chain (hash x.2), x.1 ≠ it) :
    Represents hash ({ st with key := update st.key it key }.assocInsert it (hash key))
      (t.insert Prod.snd hash (it, key)) := by
  obtain ⟨hpath, hkeys⟩ := h.bucket (hash key)
  have hchain : ∀ x ∈ t.chain (hash key), x.1 ≠ it := by
    intro x hx
    have hsame := h.good.mem_chain hx
    exact hfresh x (by rwa [ChainTable.chain_of_same hsame])
  refine h.setChain _ ((it, key) :: t.chain (hash key)) _ _ _ ?_ ?_ ?_ ?_ ?_
  · intro x hx
    rcases mem_cons.mp hx with rfl | hx
    · exact ChainTable.sameChain_self _
    · exact h.good.mem_chain hx
  · rw [map_cons, nodup_cons]
    refine ⟨fun hmem => ?_, h.good.distinct _⟩
    obtain ⟨x, hx, hkey⟩ := mem_map.mp hmem
    exact absurd (find?_eq_none.mp habsent x hx) (by simpa using hkey)
  · refine hpath.push fun hmem => ?_
    obtain ⟨x, hx, hit⟩ := mem_map.mp hmem
    exact hchain x hx hit
  · intro x hx
    rcases mem_cons.mp hx with rfl | hx
    · exact update_self _ _ _
    · exact (update_of_ne (hchain x hx) _ _).trans (hkeys x hx)
  · intro x hx _
    exact ⟨update_of_ne (hfresh x hx) _ _, update_of_ne (hfresh x hx) _ _⟩

/-! ### Deleting -/

theorem hashitemBefore_eq {s r : List ℕ} {a : ℕ} (hs : ∀ b ∈ s, key ≠ st.key b) (ha : key = st.key a)
    (hfuel : s.length ≤ fuel) {cell : AssocCell} (hpath : Path st.hNext (st.read cell) (s ++ a :: r)) :
    st.hashitemBefore key fuel cell = some ((s.getLast?.map AssocCell.next).getD cell) := by
  induction s generalizing cell fuel with
  | nil =>
    rw [nil_append] at hpath
    rw [hashitemBefore.eq_def, hpath.1]
    simp [ha]
  | cons b s ih =>
    cases fuel with
    | zero => exact absurd hfuel (by simp)
    | succ fuel =>
      rw [hashitemBefore.eq_def, hpath.1]
      simp only [if_pos (hs b mem_cons_self)]
      have hrest : Path st.hNext (st.read (.next b)) (s ++ a :: r) := hpath.2
      rw [ih (fun c hc => hs c (mem_cons_of_mem _ hc)) (Nat.le_of_succ_le_succ hfuel) hrest]
      cases s with
      | nil => rfl
      | cons c s => rfl

theorem write_read (st : AssocState) (cell : AssocCell) : st.write (st.read cell) cell = st := by
  cases cell with
  | primary b => simp [write, read]
  | old b => simp [write, read]
  | next it => simp [write, read]

/-- The bucket behind a deletion: the link field that led to the item leads to its successor. -/
theorem assocDelete_eq {s r : List ℕ} {a hv : ℕ} (hs : ∀ b ∈ s, key ≠ st.key b)
    (ha : key = st.key a) (hfuel : s.length ≤ fuel)
    (hpath : Path st.hNext (st.read (st.bucketCell hv)) (s ++ a :: r)) :
    ∃ hNext p, st.assocDelete fuel key hv = some ({ st with hNext := hNext }.write p (st.bucketCell hv)) ∧
      Path hNext p (s ++ r) ∧ ∀ c, c ∉ s ++ a :: r → hNext c = st.hNext c := by
  have hnodup := hpath.nodup
  have hbefore := hashitemBefore_eq hs ha hfuel hpath
  rcases eq_nil_or_concat s with rfl | ⟨s, b, rfl⟩
  · -- the item is the first of its bucket
    rw [nil_append] at hpath hnodup
    refine ⟨update st.hNext a none, st.hNext a, ?_, ?_, fun c hc => update_of_ne ?_ _ _⟩
    · rw [assocDelete, hbefore]
      simp only [getLast?_nil, Option.map_none, Option.getD_none, hpath.1]
    · refine hpath.2.congr fun c hc => update_of_ne ?_ _ _
      rintro rfl
      exact (nodup_cons.mp hnodup).1 hc
    · rintro rfl
      exact hc mem_cons_self
  · rw [concat_eq_append] at *
    rw [getLast?_concat, Option.map_some, Option.getD_some] at hbefore
    rw [append_assoc, singleton_append] at hpath hnodup
    have hnext : st.hNext b = some a := hpath.behind.1
    have hne : a ≠ b := by
      rintro rfl
      exact (nodup_cons.mp (nodup_append.mp hnodup).2.1).1 mem_cons_self
    have hslot : ∀ v, { st with hNext := v }.read (st.bucketCell hv) = st.read (st.bucketCell hv) := by
      intro v
      unfold bucketCell
      split
      · rfl
      · rfl
    refine ⟨update (update st.hNext a none) b (st.hNext a), st.read (st.bucketCell hv), ?_, ?_, ?_⟩
    · rw [assocDelete, hbefore, ← hslot (update (update st.hNext a none) b (st.hNext a)), write_read]
      simp only [read, hnext]
      rfl
    · rw [append_assoc, singleton_append]
      refine hpath.unlink.congr fun c hc => ?_
      have hca : c ≠ a := by
        rintro rfl
        rcases mem_append.mp hc with hc | hc
        · exact (nodup_append.mp hnodup).2.2 _ hc _ (by simp) rfl
        · rcases mem_cons.mp hc with rfl | hc
          · exact hne rfl
          · have htail := (nodup_cons.mp (nodup_append.mp hnodup).2.1).2
            exact (nodup_cons.mp htail).1 hc
      by_cases hcb : c = b
      · subst hcb
        rw [update_self, update_self]
      · rw [update_of_ne hcb, update_of_ne hca, update_of_ne hcb]
    · intro c hc
      have hcb : c ≠ b := by
        rintro rfl
        exact hc (by simp)
      have hca : c ≠ a := by
        rintro rfl
        exact hc (by simp)
      rw [update_of_ne hcb, update_of_ne hca]

/-- **`assoc_delete`** of a key that is present. -/
theorem Represents.delete (h : Represents hash st t) (hpresent : t.find Prod.snd hash key ≠ none)
    (hfuel : (t.chain (hash key)).length ≤ fuel) :
    ∃ st', st.assocDelete fuel key (hash key) = some st' ∧ Represents hash st' (t.delete Prod.snd hash key) := by
  obtain ⟨hpath, hkeys⟩ := h.bucket (hash key)
  obtain ⟨x, hx⟩ := Option.ne_none_iff_exists'.mp hpresent
  obtain ⟨hxkey, hmem⟩ := h.good.find_eq_some_iff.mp hx
  obtain ⟨x, s, r, hs, hxkey, hsplit, herase⟩ :=
    exists_of_eraseP (p := fun a : ℕ × Bytes => decide (a.2 = key)) hmem (decide_eq_true hxkey)
  rw [hsplit] at hpath hkeys hfuel
  rw [map_append, map_cons] at hpath
  have hxkey' : x.2 = key := of_decide_eq_true hxkey
  have hbefore : ∀ b ∈ s.map Prod.fst, key ≠ st.key b := by
    intro b hb
    obtain ⟨y, hy, rfl⟩ := mem_map.mp hb
    rw [hkeys y (by simp [hy])]
    exact fun heq => hs y hy (decide_eq_true heq.symm)
  have hat : key = st.key x.1 := by rw [hkeys x (by simp), hxkey']
  have hlen : (s.map Prod.fst).length ≤ fuel := by
    rw [length_append] at hfuel
    rw [length_map]
    omega
  obtain ⟨hNext, p, hdelete, hpath', hframe⟩ := assocDelete_eq hbefore hat hlen hpath
  refine ⟨_, hdelete, ?_⟩
  have hsub : (s ++ r).Sublist (t.chain (hash key)) := by
    rw [hsplit]
    exact List.Sublist.append_left (sublist_cons_self _ _) _
  have hset := h.setChain (hash key) (s ++ r) st.key hNext p
    (fun y hy => h.good.mem_chain (hsub.mem hy)) ((h.good.distinct _).sublist (hsub.map _))
    (by rwa [map_append]) (fun y hy => (h.bucket (hash key)).2 y (hsub.mem hy)) ?_
  · rw [ChainTable.delete, herase]
    exact hset
  · intro y hy hother
    refine ⟨hframe y.1 fun hmem' => hother ?_, rfl⟩
    -- the item of an address is the same everywhere
    rw [← map_cons, ← map_append, ← hsplit] at hmem'
    obtain ⟨z, hz, hzy⟩ := mem_map.mp hmem'
    have hkey : z.2 = y.2 := by
      rw [← (h.bucket _).2 z hz, hzy, (h.bucket _).2 y hy]
    rw [← hkey]
    exact h.good.mem_chain hz

/-! ### Expanding -/

/-- **`assoc_expand`** -/
theorem Represents.expand (h : Represents hash st t) (hexp : t.expanding = false) (hpower : t.power < 31)
    (calloc : Bool) :
    Represents hash (st.assocExpand calloc) (if calloc then t.expand else t) := by
  cases calloc with
  | true =>
    exact ⟨congrArg (· + 1) h.power_eq, rfl, rfl, hpower, h.good.expand hexp, fun _ b hb =>
      absurd hb (Nat.not_lt_zero b),
      fun _ => ⟨rfl, fun _ hx => nomatch hx⟩, fun _ => h.primary⟩
  | false =>
    exact ⟨h.power_eq, h.expanding_eq, h.bucket_eq, h.power_le, h.good, h.moved, h.primary,
      fun hexp' => nomatch hexp.symm.trans hexp'⟩

/-! ### Moving a bucket -/

/-- The loop over the items of a bucket puts each at the head of its new one. -/
theorem migrateLoop_eq {rest : List (ℕ × Bytes)} {prim : ℕ → List (ℕ × Bytes)} {p : Option ℕ}
    {st : AssocState} (hpower : st.hashpower ≤ 31) (hfuel : rest.length ≤ fuel) (hrest : st.Holds p rest)
    (hprim : ∀ b, st.Holds (st.primaryHashtable b) (prim b))
    (hdisjoint : ∀ b, ∀ x ∈ prim b, x.1 ∉ rest.map Prod.fst) :
    ∃ st', migrateLoop hash fuel p st = some st' ∧
      (∀ b, st'.Holds (st'.primaryHashtable b) (rest.foldl (ChainTable.push Prod.snd hash st.hashpower) prim b)) ∧
      (∀ a, a ∉ rest.map Prod.fst → st'.hNext a = st.hNext a) ∧
      st' = { st with hNext := st'.hNext, primaryHashtable := st'.primaryHashtable } := by
  induction rest generalizing p fuel st prim with
  | nil =>
    obtain rfl : p = none := hrest.1
    refine ⟨st, ?_, hprim, fun _ _ => rfl, rfl⟩
    cases fuel with
    | zero => rfl
    | succ fuel => rfl
  | cons x rest ih =>
    obtain ⟨⟨rfl, hpath⟩, hkeys⟩ := hrest
    cases fuel with
    | zero => exact absurd hfuel (by simp)
    | succ fuel =>
      have hnodup := Path.nodup (show Path st.hNext (some x.1) (x.1 :: rest.map Prod.fst) from ⟨rfl, hpath⟩)
      have hx : x.1 ∉ rest.map Prod.fst := (nodup_cons.mp hnodup).1
      have hne : ∀ b, ∀ y ∈ prim b, y.1 ≠ x.1 := fun b y hy hyx => hdisjoint b y hy (hyx ▸ mem_cons_self)
      have hbucket : hash (st.key x.1) &&& hashmask st.hashpower = hash x.2 % 2 ^ st.hashpower := by
        rw [hkeys x mem_cons_self, and_hashmask hpower]
      rw [migrateLoop]
      simp only [hbucket]
      generalize hb : hash x.2 % 2 ^ st.hashpower = bucket
      have hpush : ChainTable.push Prod.snd hash st.hashpower prim x =
          update prim bucket (x :: prim bucket) := by rw [ChainTable.push, hb]
      rw [foldl_cons, hpush]
      have htail : ∀ y ∈ rest, y.1 ≠ x.1 := fun y hy hyx => hx (hyx ▸ mem_map_of_mem hy)
      have hrest' : AssocState.Holds { st with
            hNext := update st.hNext x.1 (st.primaryHashtable bucket)
            primaryHashtable := update st.primaryHashtable bucket (some x.1) } (st.hNext x.1) rest := by
        have hold : st.Holds (st.hNext x.1) rest := ⟨hpath, fun y hy => hkeys y (mem_cons_of_mem _ hy)⟩
        exact hold.congr fun y hy => ⟨update_of_ne (htail y hy) _ _, rfl⟩
      have hprim' : ∀ b, AssocState.Holds { st with
            hNext := update st.hNext x.1 (st.primaryHashtable bucket)
            primaryHashtable := update st.primaryHashtable bucket (some x.1) }
          (update st.primaryHashtable bucket (some x.1) b)
          (update prim bucket (x :: prim bucket) b) := by
        intro b
        by_cases hbb : b = bucket
        · subst hbb
          rw [update_self, update_self]
          refine ⟨(hprim b).1.push fun hmem => ?_, fun y hy => ?_⟩
          · obtain ⟨y, hy, hyx⟩ := mem_map.mp hmem
            exact hne b y hy hyx
          · rcases mem_cons.mp hy with rfl | hy
            · exact hkeys y mem_cons_self
            · exact (hprim b).2 y hy
        · rw [update_of_ne hbb, update_of_ne hbb]
          exact (hprim b).congr fun y hy => ⟨update_of_ne (hne b y hy) _ _, rfl⟩
      have hdisjoint' : ∀ b, ∀ y ∈ update prim bucket (x :: prim bucket) b, y.1 ∉ rest.map Prod.fst := by
        intro b y hy
        by_cases hbb : b = bucket
        · subst hbb
          rw [update_self] at hy
          rcases mem_cons.mp hy with rfl | hy
          · exact hx
          · exact fun hmem => hdisjoint b y hy (mem_cons_of_mem _ hmem)
        · rw [update_of_ne hbb] at hy
          exact fun hmem => hdisjoint b y hy (mem_cons_of_mem _ hmem)
      obtain ⟨st', hloop, hprim'', hframe, hst'⟩ := ih (by exact hpower)
        (Nat.le_of_succ_le_succ hfuel) hrest' hprim' hdisjoint'
      refine ⟨st', hloop, hprim'', fun a ha => ?_, hst'⟩
      rw [map_cons, mem_cons, not_or] at ha
      rw [hframe a ha.2]
      exact update_of_ne ha.1 _ _

/-- **The maintenance thread moves a bucket.** -/
theorem Represents.migrate (h : Represents hash st t) (hexp : t.expanding = true)
    (hfuel : (t.old t.expandBucket).length ≤ fuel) :
    ∃ st', st.migrateBucket hash fuel = some st' ∧ Represents hash st' (t.moveBucket Prod.snd hash) := by
  have hpower := h.power_eq
  have hle := h.power_le
  have hdisjoint : ∀ b, ∀ x ∈ t.primary b, x.1 ∉ (t.old t.expandBucket).map Prod.fst := by
    intro b x hx hmem
    obtain ⟨y, hy, hyx⟩ := mem_map.mp hmem
    have hkey : y.2 = x.2 := by rw [← (h.old hexp _).2 y hy, hyx, (h.primary b).2 x hx]
    exact (h.mem_primary hx).1 (hkey ▸ (h.mem_old hexp hy).1)
  obtain ⟨st', hloop, hprim, hframe, hst'⟩ := migrateLoop_eq (by omega) hfuel (h.old hexp t.expandBucket) h.primary
    hdisjoint
  have hgood := h.good.moveBucket hexp
  have hmigrate : st.migrateBucket hash fuel = some
      { st' with
        oldHashtable := update st.oldHashtable t.expandBucket none
        expandBucket := t.expandBucket + 1
        expanding := decide (t.expandBucket + 1 ≠ 2 ^ (t.power - 1)) } := by
    rw [migrateBucket, h.bucket_eq, hloop, hst']
    simp only [h.bucket_eq, h.power_eq, hashsize_eq (show t.power - 1 ≤ 31 by omega), h.expanding_eq, hexp]
    split
    · rename_i hlast
      simp [hlast]
    · rename_i hmore
      simp [hmore]
  refine ⟨_, hmigrate, ?_, rfl, rfl, hle, hgood, ?_, ?_, ?_⟩
  · rw [hst']
    exact hpower
  · intro _ b hb
    by_cases hbb : b = t.expandBucket
    · exact hbb ▸ update_self _ _ _
    · refine (update_of_ne hbb _ _).trans (h.moved hexp b ?_)
      have hlt : b < t.expandBucket + 1 := hb
      omega
  · intro b
    rw [hpower] at hprim
    exact hprim b
  · intro _ b
    dsimp only [ChainTable.moveBucket]
    by_cases hbb : b = t.expandBucket
    · subst hbb
      rw [update_self, update_self]
      exact ⟨rfl, fun _ hx => nomatch hx⟩
    · rw [update_of_ne hbb, update_of_ne hbb]
      refine (h.old hexp b).congr fun x hx => ⟨hframe x.1 fun hmem => hbb ?_, ?_⟩
      · obtain ⟨y, hy, hyx⟩ := mem_map.mp hmem
        have hkey : y.2 = x.2 := by rw [← (h.old hexp _).2 y hy, hyx, (h.old hexp b).2 x hx]
        rw [← h.good.old_hash hexp b x hx, ← hkey, h.good.old_hash hexp _ y hy]
      · rw [hst']

/-! ### Runs -/

/-- The memory holds a table that is the map `m`, of items that are in the list `items`. -/
structure Keeps (hash : Bytes → ℕ) (st : AssocState) (m : Bytes → Option ℕ)
    (items : List (ℕ × Bytes))
    (t : ChainTable (ℕ × Bytes)) : Prop where
  represents : Represents hash st t
  find_eq : ∀ k, t.find Prod.snd hash k = (m k).map fun it => (it, k)
  mem_items : ∀ hv, ∀ x ∈ t.chain hv, x ∈ items

variable {m : Bytes → Option ℕ} {items : List (ℕ × Bytes)}

theorem Keeps.mem_chain_iff (h : Keeps hash st m items t) (x : ℕ × Bytes) :
    x ∈ t.chain (hash x.2) ↔ m x.2 = some x.1 := by
  have hfind := h.represents.good.find_eq_some_iff (k := x.2) (a := x)
  rw [h.find_eq] at hfind
  constructor
  · intro hx
    obtain ⟨it, hit, heq⟩ := Option.map_eq_some_iff.mp (hfind.mpr ⟨rfl, hx⟩)
    rw [hit, ← heq]
  · intro hm
    exact (hfind.mp (by rw [hm, Option.map_some])).2

theorem Keeps.chain_length_le (h : Keeps hash st m items t) (hv : ℕ) : (t.chain hv).length ≤ items.length := by
  have hnodup : (t.chain hv).Nodup := (h.represents.good.distinct hv).of_map _
  exact (subperm_of_subset hnodup fun x hx => h.mem_items hv x hx).length_le

/-- **One event.** -/
theorem Keeps.step (h : Keeps hash st m items t) (hfuel : items.length ≤ fuel) {e : AssocEvent}
    (hallowed : e.Allowed st m) :
    ∃ st' items' t', st.assocStep hash fuel e = some st' ∧ items'.length ≤ items.length + 1 ∧
      Keeps hash st' (e.onMap m) items' t' := by
  have hrep := h.represents
  cases e with
  | insert it key =>
    obtain ⟨habsent, hfresh⟩ := hallowed
    have hnone : t.find Prod.snd hash key = none := by rw [h.find_eq, habsent, Option.map_none]
    have hnew : ∀ x ∈ t.chain (hash x.2), x.1 ≠ it := fun x hx hit =>
      hfresh x.2 (hit ▸ (h.mem_chain_iff x).mp hx)
    refine ⟨_, (it, key) :: items, _, rfl, le_rfl, hrep.insert hnone hnew, fun k => ?_, fun hv x hx => ?_⟩
    · rw [ChainTable.find_insert, AssocEvent.onMap]
      by_cases hk : key = k
      · subst hk
        rw [if_pos rfl, update_self, Option.map_some]
      · rw [if_neg hk, update_of_ne (Ne.symm hk), h.find_eq]
    · by_cases hsame : t.SameChain (hash key) hv
      · rw [ChainTable.insert, ChainTable.chain_setChain_of_same _ hsame] at hx
        rcases mem_cons.mp hx with rfl | hx
        · exact mem_cons_self
        · exact mem_cons_of_mem _ (h.mem_items _ x hx)
      · rw [ChainTable.insert, ChainTable.chain_setChain_of_not_same _ hsame] at hx
        exact mem_cons_of_mem _ (h.mem_items _ x hx)
  | delete key =>
    have hpresent : t.find Prod.snd hash key ≠ none := by
      rw [h.find_eq, ne_eq, Option.map_eq_none_iff]
      exact hallowed
    obtain ⟨st', hst', hrep'⟩ := hrep.delete hpresent ((h.chain_length_le _).trans hfuel)
    refine ⟨st', items, _, hst', Nat.le_succ _, hrep', fun k => ?_, fun hv x hx => ?_⟩
    · rw [hrep.good.find_delete, AssocEvent.onMap]
      by_cases hk : key = k
      · subst hk
        rw [if_pos rfl, update_self, Option.map_none]
      · rw [if_neg hk, update_of_ne (Ne.symm hk), h.find_eq]
    · by_cases hsame : t.SameChain (hash key) hv
      · rw [ChainTable.delete, ChainTable.chain_setChain_of_same _ hsame] at hx
        exact h.mem_items _ x (mem_of_mem_eraseP hx)
      · rw [ChainTable.delete, ChainTable.chain_setChain_of_not_same _ hsame] at hx
        exact h.mem_items _ x hx
  | expand calloc =>
    cases hexp : t.expanding with
    | true =>
      refine ⟨st, items, t, ?_, Nat.le_succ _, h⟩
      rw [assocStep, hrep.expanding_eq, hexp, if_pos rfl]
    | false =>
      have hpower : t.power < 31 := by rw [← hrep.power_eq]; exact hallowed
      refine ⟨st.assocExpand calloc, items, _, ?_, Nat.le_succ _, hrep.expand hexp hpower calloc, ?_, ?_⟩
      · rw [assocStep, hrep.expanding_eq, hexp, if_neg Bool.false_ne_true]
      · intro k
        cases calloc with
        | true => exact (ChainTable.find_expand hexp k).trans (h.find_eq k)
        | false => exact h.find_eq k
      · intro hv x hx
        cases calloc with
        | true => exact h.mem_items hv x (by rwa [if_pos rfl, ChainTable.chain_expand hexp] at hx)
        | false => exact h.mem_items hv x hx
  | migrate =>
    cases hexp : t.expanding with
    | false =>
      refine ⟨st, items, t, ?_, Nat.le_succ _, h⟩
      rw [assocStep, hrep.expanding_eq, hexp, if_neg Bool.false_ne_true]
    | true =>
      have hbucket := (hrep.good.bucket_lt hexp).2
      have hchain : t.old t.expandBucket = t.chain t.expandBucket := by
        rw [ChainTable.chain, Nat.mod_eq_of_lt hbucket, if_pos ⟨hexp, (Nat.mod_eq_of_lt hbucket).ge⟩]
      have hlen : (t.old t.expandBucket).length ≤ fuel := by
        rw [hchain]
        exact (h.chain_length_le _).trans hfuel
      obtain ⟨st', hst', hrep'⟩ := hrep.migrate hexp hlen
      refine ⟨st', items, _, ?_, Nat.le_succ _, hrep', fun k => ?_, fun hv x hx => ?_⟩
      · rw [assocStep, hrep.expanding_eq, hexp, if_pos rfl, hst']
      · exact (hrep.good.find_moveBucket hexp k).trans (h.find_eq k)
      · rw [hrep.good.chain_moveBucket hexp] at hx
        split at hx
        · exact h.mem_items hv x (mem_filter.mp (mem_reverse.mp hx)).1
        · exact h.mem_items hv x hx

def AllowedRun (hash : Bytes → ℕ) (fuel : ℕ) : AssocState → (Bytes → Option ℕ) →
    List AssocEvent → Prop
  | _, _, [] => True
  | st, m, e :: es =>
    e.Allowed st m ∧ ∀ st', st.assocStep hash fuel e = some st' → AllowedRun hash fuel st' (e.onMap m) es

/-- **Whole runs.**  The induction is on the events. -/
theorem Keeps.run {es : List AssocEvent} (h : Keeps hash st m items t) (hfuel : items.length + es.length ≤ fuel)
    (hall : AllowedRun hash fuel st m es) :
    ∃ st' items' t', es.foldlM (assocStep hash fuel) st = some st' ∧ items'.length ≤ fuel ∧
      Keeps hash st' (es.foldl AssocEvent.onMap m) items' t' := by
  induction es generalizing st m items t with
  | nil => exact ⟨st, items, t, rfl, by simpa using hfuel, h⟩
  | cons e es ih =>
    rw [length_cons] at hfuel
    obtain ⟨st₁, items₁, t₁, hst₁, hlen, hkeeps⟩ := h.step (show items.length ≤ fuel by omega) hall.1
    obtain ⟨st', items', t', hrun, hle, hkeeps'⟩ := ih hkeeps (by omega) (hall.2 st₁ hst₁)
    refine ⟨st', items', t', ?_, hle, hkeeps'⟩
    rw [foldlM_cons, hst₁]
    exact hrun

def IsBucket (st : AssocState) : AssocCell → Prop
  | .primary bucket => bucket < hashsize st.hashpower
  | .old bucket => st.expanding = true ∧ bucket < hashsize (st.hashpower - 1)
  | .next _ => False

theorem Represents.isBucket (h : Represents hash st t) (hv : ℕ) : st.IsBucket (st.bucketCell hv) := by
  have hle := h.power_le
  rw [h.bucketCell_eq]
  split
  · rename_i hin
    refine ⟨h.expanding_eq.trans hin.1, ?_⟩
    rw [h.power_eq, hashsize_eq (by omega)]
    exact Nat.mod_lt _ (Nat.two_pow_pos _)
  · rw [IsBucket, h.power_eq, hashsize_eq hle]
    exact Nat.mod_lt _ (Nat.two_pow_pos _)

theorem Represents.bucket_of_path (h : Represents hash st t) {cell : AssocCell} (hcell : st.IsBucket cell)
    {l : List ℕ}
    (hpath : Path st.hNext (st.read cell) l) {it : ℕ} (hit : it ∈ l) :
    cell = st.bucketCell (hash (st.key it)) ∧ (it, st.key it) ∈ t.chain (hash (st.key it)) := by
  rw [h.bucketCell_eq]
  cases cell with
  | primary b =>
    obtain rfl := hpath.unique (h.primary b).1
    obtain ⟨x, hx, rfl⟩ := mem_map.mp hit
    obtain ⟨hnot, hmem⟩ := h.mem_primary hx
    rw [(h.primary b).2 x hx, if_neg hnot, h.good.primary_hash b x hx]
    exact ⟨rfl, hmem⟩
  | old b =>
    have hexp : t.expanding = true := h.expanding_eq.symm.trans hcell.1
    obtain rfl := hpath.unique (h.old hexp b).1
    obtain ⟨x, hx, rfl⟩ := mem_map.mp hit
    obtain ⟨hin, hmem⟩ := h.mem_old hexp hx
    rw [(h.old hexp b).2 x hx, if_pos hin, h.good.old_hash hexp b x hx]
    exact ⟨rfl, hmem⟩
  | next a => exact hcell.elim

end AssocState

open AssocState in
/-- **The hash table is a finite map, also while it grows.**  Behind every run of insertions, deletions, expansions that
may fail and moves of single buckets, `assoc_find` returns the item last inserted and not deleted under the key; every
bucket of the two arrays is a chain that ends, of such items; and each of them is on the chain of exactly one bucket. -/
theorem assoc_finite_map (hash : Bytes → ℕ) {power fuel : ℕ} (hpower : power ≤ 31) (es : List AssocEvent)
    (hfuel : es.length ≤ fuel) (hall : AllowedRun hash fuel (assocInit power) (fun _ => none) es) :
    ∃ st, es.foldlM (assocStep hash fuel) (assocInit power) = some st ∧
      (∀ key, st.assocFind fuel key (hash key) = some (es.foldl AssocEvent.onMap (fun _ => none) key)) ∧
      (∀ cell, st.IsBucket cell → ∃ l, Path st.hNext (st.read cell) l ∧ l.Nodup ∧
        ∀ it ∈ l, es.foldl AssocEvent.onMap (fun _ => none) (st.key it) = some it) ∧
      ∀ key it, es.foldl AssocEvent.onMap (fun _ => none) key = some it → st.key it = key ∧
        ∃! cell, st.IsBucket cell ∧ ∃ l, Path st.hNext (st.read cell) l ∧ it ∈ l := by
  have hempty : ∀ hv, (ChainTable.empty power : ChainTable (ℕ × Bytes)).chain hv = [] := fun hv => ite_self _
  have hstart : Keeps hash (assocInit power) (fun _ => none) [] (ChainTable.empty power) :=
    ⟨represents_init hash hpower, fun _ => rfl, fun hv x hx => by rwa [hempty] at hx⟩
  obtain ⟨st, items, t, hrun, hle, hkeeps⟩ := hstart.run (by simpa using hfuel) hall
  generalize es.foldl AssocEvent.onMap (fun _ => none) = m at *
  have hrep := hkeeps.represents
  refine ⟨st, hrun, fun key => ?_, fun cell hcell => ?_, fun key it hm => ?_⟩
  · rw [hrep.find key ((hkeeps.chain_length_le _).trans hle), hkeeps.find_eq, Option.map_map]
    simp [comp_def]
  · obtain ⟨l, hpath⟩ : ∃ l, Path st.hNext (st.read cell) l := by
      cases cell with
      | primary b => exact ⟨_, (hrep.primary b).1⟩
      | old b => exact ⟨_, (hrep.old (hrep.expanding_eq.symm.trans hcell.1) b).1⟩
      | next a => exact hcell.elim
    exact ⟨l, hpath, hpath.nodup, fun it hit => (hkeeps.mem_chain_iff _).mp (hrep.bucket_of_path hcell hpath hit).2⟩
  · have hmem := (hkeeps.mem_chain_iff (it, key)).mpr hm
    obtain ⟨hpath, hkeys⟩ := hrep.bucket (hash key)
    have hkey : st.key it = key := hkeys _ hmem
    refine ⟨hkey, st.bucketCell (hash key), ⟨hrep.isBucket _, _, hpath, mem_map_of_mem hmem⟩, ?_⟩
    rintro cell ⟨hcell, l, hl, hit⟩
    rw [(hrep.bucket_of_path hcell hl hit).1, hkey]

open AssocState in
/-- Two items are inserted, the table grows from one bucket to two, and one of them is deleted before its bucket
moves. -/
theorem assoc_finite_map_growing :
    ∃ st, ([.insert 1 [97], .insert 2 [98], .expand true, .delete [97], .migrate] : List AssocEvent).foldlM
        (assocStep length 5) (assocInit 0) = some st ∧
      st.assocFind 5 [98] 1 = some (some 2) ∧ st.assocFind 5 [97] 1 = some none := by
  have hall : AllowedRun length 5 (assocInit 0) (fun _ => none)
      [.insert 1 [97], .insert 2 [98], .expand true, .delete [97], .migrate] := by
    refine ⟨⟨rfl, fun _ h => nomatch h⟩, fun st₁ h₁ => ?_⟩
    obtain rfl := Option.some.inj h₁
    refine ⟨⟨by decide, fun k => ?_⟩, fun st₂ h₂ => ?_⟩
    · by_cases hk : k = [97]
      · subst hk
        decide
      · simp [AssocEvent.onMap, update_of_ne hk]
    obtain rfl := Option.some.inj h₂
    refine ⟨show 0 < 31 by decide, fun st₃ h₃ => ?_⟩
    obtain rfl := Option.some.inj h₃
    exact ⟨by simp [AssocEvent.Allowed, AssocEvent.onMap], fun st₄ h₄ =>
      ⟨trivial, fun st₅ h₅ => trivial⟩⟩
  obtain ⟨st, hrun, hfind, -⟩ := assoc_finite_map length (Nat.zero_le 31) _ (by decide : _ ≤ 5) hall
  exact ⟨st, hrun, hfind [98], hfind [97]⟩

end BmcCache
