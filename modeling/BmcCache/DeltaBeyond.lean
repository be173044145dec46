import BmcCache.AddDelta

/-!
# What `incr` and `decr` read behind the item

`do_add_delta` hands the data of an item to `safe_strtoull`, which takes it for a C string.  The data has no NUL at its
end, and the string goes on in the memory behind the item.

* `StrItem.cString` is that string; `readBehind d beyond` is what is read from data `d` with `beyond` behind it;
* `DependsBehind d` — the data whose reading is not settled by `d`: it ends before the number does (white space
  only is such data, as `strtoull` skips `"\r\n"` too), or the number has the top bit, and the search for a minus
  sign runs on;
* `readBehind_const_iff` — otherwise, and only then, the same is read whatever is behind;
* `delta_only_item_iff` — hence which items `do_add_delta` treats alike in any two memories that agree on them.
-/

namespace BmcCache

open ByteBuffer List

/-! ### Numbers that go on -/

/-- The data ends inside a number, possibly before its first digit. -/
def OpenNumber (d : Bytes) (negative : Bool) (digits : Bytes) : Prop :=
  ∃ space sign, d = space ++ (sign ++ digits) ∧ (∀ b ∈ space, isSpace b = true) ∧ SignBytes sign negative ∧
    ∀ b ∈ digits, isDigit b = true

/-- **Data whose reading depends on the memory behind it.**  A number without sign, or with a plus sign, that the data
cuts can be ended or spoiled by what follows, unless it is too large already.  A negative number is accepted if it is
zero or below `-2^63`.  A number with the top bit that ends in the data is refused when a minus sign follows. -/
def DependsBehind (d : Bytes) : Prop :=
  0 ∉ d ∧
    ((∃ digits, OpenNumber d false digits ∧ digitsValue digits < 2 ^ 64) ∨
      (∃ digits, OpenNumber d true digits ∧ (digitsValue digits = 0 ∨
        ∃ more, (∀ b ∈ more, isDigit b = true) ∧ 2 ^ 63 < digitsValue (digits ++ more) ∧
          digitsValue (digits ++ more) < 2 ^ 64)) ∨
      (45 ∉ d ∧ ∃ z, Denotes d z ∧ 2 ^ 63 ≤ z ∧ z < 2 ^ 64))

/-- What `safe_strtoull` reads from the data with more memory behind it. -/
def readBehind (d beyond : Bytes) : Option ℕ := safeStrtoull ((d ++ beyond).takeWhile (· ≠ 0))

theorem readBehind_eq {d : Bytes} (h : 0 ∉ d) (beyond : Bytes) :
    readBehind d beyond = safeStrtoull (d ++ beyond.takeWhile (· ≠ 0)) := by
  rw [readBehind, takeWhile_append_of_pos]
  intro b hb
  rw [decide_eq_true_eq]
  rintro rfl
  exact h hb

theorem readBehind_of_mem {d : Bytes} (h : 0 ∈ d) (beyond : Bytes) :
    readBehind d beyond = readBehind d [] := by
  obtain ⟨front, back, rfl, hfront⟩ := eq_append_cons_of_mem h
  have hstop : ∀ rest, (front ++ 0 :: rest).takeWhile (· ≠ 0) = front := by
    intro rest
    rw [takeWhile_append_of_pos, takeWhile_cons_of_neg (by simp), append_nil]
    intro b hb
    rw [decide_eq_true_eq]
    rintro rfl
    exact hfront hb
  rw [readBehind, readBehind, append_nil, append_assoc, cons_append, hstop, hstop]

theorem digitsValue_append (digits more : Bytes) : digitsValue digits ≤ digitsValue (digits ++ more) := by
  have hge : ∀ (l : Bytes) (v : ℕ), v ≤ l.foldl (fun v b => 10 * v + (b.toNat - 48)) v := by
    intro l
    induction l with
    | nil =>
      intro v
      exact le_rfl
    | cons b l ih =>
      intro v
      rw [foldl_cons]
      exact le_trans (by omega) (ih _)
  rw [digitsValue, digitsValue, foldl_append]
  exact hge more _

theorem strtoNumber_none {space sign rest : Bytes} {negative : Bool} (hspace : ∀ b ∈ space, isSpace b = true)
    (hsign : SignBytes sign negative) (hrest : ∀ b ∈ rest.head?, isDigit b = false)
    (hplain : sign = [] → ∀ b ∈ rest.head?, isSpace b = false ∧ b ≠ 45 ∧ b ≠ 43) :
    strtoNumber (space ++ (sign ++ rest)) = none := by
  have hhead : ∀ b ∈ (sign ++ rest).head?, isSpace b = false := by
    intro b hb
    rcases hsign with ⟨rfl, -⟩ | ⟨rfl, -⟩ | ⟨rfl, -⟩
    · exact (hplain rfl b hb).1
    · obtain rfl : 43 = b := by simpa using hb
      decide
    · obtain rfl : 45 = b := by simpa using hb
      decide
  have htail : (if (sign ++ rest).head? = some 45 ∨ (sign ++ rest).head? = some 43 then (sign ++ rest).tail
      else sign ++ rest) = rest := by
    rcases hsign with ⟨rfl, -⟩ | ⟨rfl, -⟩ | ⟨rfl, -⟩
    · rw [nil_append, if_neg]
      rintro (h | h)
      · exact (hplain rfl 45 h).2.1 rfl
      · exact (hplain rfl 43 h).2.2 rfl
    · simp
    · simp
  have htake : rest.takeWhile isDigit = [] := by
    cases rest with
    | nil => rfl
    | cons r rest => exact takeWhile_cons_of_neg (by simp [hrest r (by simp)])
  unfold strtoNumber
  dsimp only
  rw [(dropWhile_of_head hspace hhead).1, htail, if_pos htake]

/-- **The pieces of any data**: white space, a sign, digits, and what is left. -/
theorem number_pieces (d : Bytes) : ∃ space sign negative digits rest,
    d = space ++ (sign ++ (digits ++ rest)) ∧
    (∀ b ∈ space, isSpace b = true) ∧ SignBytes sign negative ∧ (∀ b ∈ digits, isDigit b = true) ∧
    (∀ b ∈ rest.head?, isDigit b = false) ∧
    (digits = [] → sign = [] → ∀ b ∈ rest.head?, isSpace b = false ∧ b ≠ 45 ∧ b ≠ 43) := by
  obtain ⟨sign, hsign, hsplit, hnone⟩ := sign_split (d.dropWhile isSpace)
  generalize (if (d.dropWhile isSpace).head? = some 45 ∨ (d.dropWhile isSpace).head? = some 43
    then (d.dropWhile isSpace).tail else d.dropWhile isSpace) = s at hsplit
  refine ⟨d.takeWhile isSpace, sign, _, s.takeWhile isDigit, s.dropWhile isDigit, ?_,
    fun b hb => mem_takeWhile_imp hb, hsign, fun b hb => mem_takeWhile_imp hb, head_dropWhile isDigit s, ?_⟩
  · rw [takeWhile_append_dropWhile, ← hsplit, takeWhile_append_dropWhile]
  · intro hdigits hnosign b hb
    have hall : s.dropWhile isDigit = s := by
      have h := @takeWhile_append_dropWhile _ isDigit s
      rwa [hdigits, nil_append] at h
    rw [hall] at hb
    rw [hnosign, nil_append] at hsplit
    rw [← hsplit] at hb
    refine ⟨head_dropWhile isSpace d b hb, ?_, ?_⟩
    · rintro rfl
      exact (hnone hnosign).1 hb
    · rintro rfl
      exact (hnone hnosign).2 hb

/-- **What is read when the digits end in the data**, or at once behind it. -/
theorem strtoNumber_pieces {space sign digits rest : Bytes} {negative : Bool}
    (hspace : ∀ b ∈ space, isSpace b = true)
    (hsign : SignBytes sign negative) (hne : digits ≠ []) (hdigits : ∀ b ∈ digits, isDigit b = true)
    (hrest : ∀ b ∈ rest.head?, isDigit b = false) :
    strtoNumber (space ++ (sign ++ (digits ++ rest))) = some (negative, digitsValue digits, rest) :=
  strtoNumber_eq_some_iff.mpr ⟨⟨space, sign, digits, rfl, hspace, hsign, hne, hdigits, rfl⟩, hrest⟩

theorem strtoNumber_append {d rest : Bytes} {negative : Bool} {m : ℕ}
    (h : strtoNumber d = some (negative, m, rest))
    (b : Bytes) (hrest : ∀ c ∈ (rest ++ b).head?, isDigit c = false) :
    strtoNumber (d ++ b) = some (negative, m, rest ++ b) := by
  obtain ⟨⟨space, sign, digits, rfl, hspace, hsign, hne, hdigits, hval⟩, -⟩ := strtoNumber_eq_some_iff.mp h
  refine strtoNumber_eq_some_iff.mpr ⟨⟨space, sign, digits, ?_, hspace, hsign, hne, hdigits, hval⟩, hrest⟩
  rw [append_assoc, append_assoc, append_assoc]

section Open

variable {d digits : Bytes} {negative : Bool}

theorem OpenNumber.spoiled (h : OpenNumber d negative digits) : safeStrtoull (d ++ [120]) = none := by
  obtain ⟨space, sign, rfl, hspace, hsign, hdigits⟩ := h
  rw [append_assoc, append_assoc]
  by_cases hne : digits = []
  · subst hne
    have hnone : strtoNumber (space ++ (sign ++ [120])) = none :=
      strtoNumber_none hspace hsign (by simp [isDigit]) (fun _ => by simp [isSpace])
    rw [nil_append, safeStrtoull, hnone]
  · have hread := strtoNumber_pieces hspace hsign hne hdigits
      (show ∀ b ∈ ([120] : Bytes).head?, isDigit b = false by simp [isDigit])
    rw [safeStrtoull, hread]
    simp [endsNumber, isSpace]

theorem OpenNumber.continued (h : OpenNumber d negative digits) {more rest : Bytes}
    (hmore : ∀ b ∈ more, isDigit b = true) (hne : digits ++ more ≠ [])
    (hrest : ∀ b ∈ rest.head?, isDigit b = false) :
    strtoNumber (d ++ (more ++ rest)) = some (negative, digitsValue (digits ++ more), rest) := by
  obtain ⟨space, sign, rfl, hspace, hsign, hdigits⟩ := h
  have hread := strtoNumber_pieces hspace hsign hne
    (fun b hb => (mem_append.mp hb).elim (hdigits b) (hmore b)) hrest
  rw [append_assoc] at hread
  rw [append_assoc, append_assoc]
  exact hread

theorem OpenNumber.not_minus (h : OpenNumber d false digits) : 45 ∉ d := by
  obtain ⟨space, sign, rfl, hspace, hsign, hdigits⟩ := h
  rintro hmem
  rcases mem_append.mp hmem with hmem | hmem
  · exact absurd (hspace 45 hmem) (by decide)
  rcases mem_append.mp hmem with hmem | hmem
  · rcases hsign with ⟨rfl, -⟩ | ⟨rfl, -⟩ | ⟨-, hneg⟩
    · cases hmem
    · exact absurd hmem (by decide)
    · cases hneg
  · exact absurd (hdigits 45 hmem) (by decide)

end Open

section Accepted

variable {str rest : Bytes} {m : ℕ}

theorem accepted_plain (hread : strtoNumber str = some (false, m, rest)) (hends : endsNumber rest = true)
    (hm : m < 2 ^ 64) (hminus : m < 2 ^ 63 ∨ 45 ∉ str) : (safeStrtoull str).isSome := by
  rcases safeStrtoull_cases hread hends rfl with ⟨hv, hres⟩ | ⟨hv, hres⟩ | ⟨hv, hres⟩ | ⟨hv, hres⟩
  · simp only [signedValue, Bool.false_eq_true, if_false] at hv
    omega
  · rw [hres]
    rfl
  · rw [hres]
    rfl
  · simp only [signedValue, Bool.false_eq_true, if_false] at hv
    rw [hres, if_neg (hminus.resolve_left (by omega))]
    rfl

theorem accepted_negative (hread : strtoNumber str = some (true, m, rest)) (hends : endsNumber rest = true) :
    (safeStrtoull str).isSome ↔ m = 0 ∨ 2 ^ 63 < m ∧ m < 2 ^ 64 := by
  rcases safeStrtoull_cases hread hends rfl with ⟨hv, hres⟩ | ⟨hv, hres⟩ | ⟨hv, hres⟩ | ⟨hv, hres⟩
  all_goals simp only [signedValue, if_true] at hv
  · exact iff_of_false (by rw [hres]; simp) (by omega)
  · exact iff_of_true (by rw [hres]; rfl) (by omega)
  · exact iff_of_true (by rw [hres]; rfl) (by omega)
  · omega

/-- A number that is too large, or of whose end nothing is known. -/
theorem refused_large (hread : strtoNumber str = some (false, m, rest)) (hm : 2 ^ 64 ≤ m) :
    safeStrtoull str = none := by
  unfold safeStrtoull
  rw [hread]
  dsimp only
  rw [if_pos hm]

theorem refused_end {negative : Bool} (hread : strtoNumber str = some (negative, m, rest))
    (hends : endsNumber rest = false) : safeStrtoull str = none := by
  unfold safeStrtoull
  rw [hread]
  simp [hends]

theorem refused_minus (hread : strtoNumber str = some (false, m, rest)) (hm : 2 ^ 63 ≤ m) (hminus : 45 ∈ str) :
    safeStrtoull str = none := by
  unfold safeStrtoull
  rw [hread]
  simp only [Bool.false_eq_true, if_false]
  rw [if_pos (show 2 ^ 63 ≤ m ∧ 45 ∈ str from ⟨hm, hminus⟩), ite_self, ite_self]

end Accepted

/-- **What is behind can change what is read**: with some memory behind it the data is no number, with other memory it
is one. -/
theorem DependsBehind.differs {d : Bytes} (h : DependsBehind d) :
    ∃ beyond beyond', readBehind d beyond = none ∧ (readBehind d beyond').isSome := by
  obtain ⟨hzero, h⟩ := h
  have hread : ∀ beyond, 0 ∉ beyond → readBehind d beyond = safeStrtoull (d ++ beyond) := by
    intro beyond hb
    rw [readBehind_eq hzero, takeWhile_eq_self_iff.mpr]
    intro b hmem
    rw [decide_eq_true_eq]
    rintro rfl
    exact hb hmem
  rcases h with ⟨digits, hopen, hlow⟩ | ⟨digits, hopen, hvalue⟩ | ⟨hminus, z, hden, hlow, hhigh⟩
  · by_cases hne : digits = []
    · subst hne
      have hnum := @OpenNumber.continued _ _ _ hopen [48] [] (by decide +kernel) (by simp) (by simp)
      refine ⟨[120], [48], by rw [hread _ (by decide), hopen.spoiled], ?_⟩
      rw [hread _ (by decide)]
      exact accepted_plain hnum rfl (by decide) (Or.inl (by decide))
    · have hnum := @OpenNumber.continued _ _ _ hopen [] [] (by simp) (by simpa using hne) (by simp)
      simp only [append_nil] at hnum
      refine ⟨[120], [], by rw [hread _ (by decide), hopen.spoiled], ?_⟩
      rw [hread _ (by simp), append_nil]
      exact accepted_plain hnum rfl hlow (Or.inr hopen.not_minus)
  · refine ⟨[120], ?_⟩
    rcases hvalue with hvalue | ⟨more, hmore, hvalue⟩
    · have hnum := @OpenNumber.continued _ _ _ hopen [48] [] (by decide +kernel) (by simp) (by simp)
      refine ⟨[48], by rw [hread _ (by decide), hopen.spoiled], ?_⟩
      rw [hread _ (by decide)]
      refine (accepted_negative hnum rfl).mpr (Or.inl ?_)
      rw [digitsValue, foldl_append]
      show 10 * digitsValue digits + (48 - 48) = 0
      omega
    · have hne : digits ++ more ≠ [] := by
        intro hnil
        rw [hnil] at hvalue
        exact absurd hvalue.1 (by decide)
      have hnum := @OpenNumber.continued _ _ _ hopen more [] hmore hne (by simp)
      rw [append_nil] at hnum
      have hnozero : 0 ∉ more := fun hmem => absurd (hmore 0 hmem) (by decide)
      refine ⟨more, by rw [hread _ (by decide), hopen.spoiled], ?_⟩
      rw [hread _ hnozero]
      exact (accepted_negative hnum rfl).mpr (Or.inr hvalue)
  · obtain ⟨negative, m, rest, hnum, hends, rfl⟩ := denotes_iff.mp hden
    have hneg : negative = false := by
      cases negative with
      | false => rfl
      | true =>
        simp only [signedValue, if_true] at hlow
        omega
    subst hneg
    simp only [signedValue, Bool.false_eq_true, if_false] at hlow hhigh
    refine ⟨[45], [], ?_, ?_⟩
    · rw [hread _ (by decide)]
      exact refused_minus (strtoNumber_append hnum [45] (by
        cases rest with
        | nil => simp [isDigit]
        | cons r rest => exact (strtoNumber_eq_some_iff.mp hnum).2)) (by omega) (by simp)
    · rw [hread _ (by simp), append_nil]
      exact accepted_plain hnum hends (by omega) (Or.inr hminus)

/-- **Otherwise the same is read whatever is behind.** -/
theorem readBehind_const {d : Bytes} (h : ¬ DependsBehind d) (beyond beyond' : Bytes) :
    readBehind d beyond = readBehind d beyond' := by
  by_cases hzero : 0 ∈ d
  · rw [readBehind_of_mem hzero beyond, readBehind_of_mem hzero beyond']
  rw [readBehind_eq hzero, readBehind_eq hzero]
  generalize beyond.takeWhile (· ≠ 0) = b₁
  generalize beyond'.takeWhile (· ≠ 0) = b₂
  obtain ⟨space, sign, negative, digits, rest, rfl, hspace, hsign, hdigits, hrest, hplain⟩ := number_pieces d
  cases rest with
  | nil =>
    -- the data ends inside the number, and no continuation of it is accepted
    have hnone : ∀ b, safeStrtoull (space ++ (sign ++ (digits ++ [])) ++ b) = none := by
      intro b
      have hopen : OpenNumber (space ++ (sign ++ (digits ++ []))) negative digits :=
        ⟨space, sign, by rw [append_nil], hspace, hsign, hdigits⟩
      have hne : digits ≠ [] := by
        rintro rfl
        cases negative with
        | false => exact h ⟨hzero, Or.inl ⟨[], hopen, by decide⟩⟩
        | true => exact h ⟨hzero, Or.inr (Or.inl ⟨[], hopen, Or.inl rfl⟩)⟩
      have hmore : ∀ c ∈ b.takeWhile isDigit, isDigit c = true := fun c hc => mem_takeWhile_imp hc
      have hnum := hopen.continued hmore (by simp [hne]) (head_dropWhile isDigit b)
      rw [takeWhile_append_dropWhile] at hnum
      cases hends : endsNumber (b.dropWhile isDigit) with
      | false => exact refused_end hnum hends
      | true =>
        cases negative with
        | false =>
          refine refused_large hnum (le_trans (Nat.not_lt.mp fun hlow => ?_) (digitsValue_append digits _))
          exact h ⟨hzero, Or.inl ⟨digits, hopen, hlow⟩⟩
        | true =>
          rw [← Option.not_isSome_iff_eq_none, accepted_negative hnum hends]
          rintro (hvalue | hvalue)
          · have hle := digitsValue_append digits (b.takeWhile isDigit)
            exact h ⟨hzero, Or.inr (Or.inl ⟨digits, hopen, Or.inl (by omega)⟩)⟩
          · exact h ⟨hzero, Or.inr (Or.inl ⟨digits, hopen, Or.inr ⟨_, hmore, hvalue⟩⟩)⟩
    rw [hnone, hnone]
  | cons r rest =>
    by_cases hne : digits = []
    · subst hne
      have hnone : ∀ b, safeStrtoull (space ++ (sign ++ ([] ++ r :: rest)) ++ b) = none := by
        intro b
        have hnum : strtoNumber (space ++ (sign ++ (r :: (rest ++ b)))) = none :=
          strtoNumber_none hspace hsign hrest (hplain rfl)
        rw [nil_append, append_assoc, append_assoc, cons_append, safeStrtoull, hnum]
      rw [hnone, hnone]
    · have hnum := strtoNumber_pieces hspace hsign hne hdigits hrest
      generalize hd : space ++ (sign ++ (digits ++ r :: rest)) = d at h hzero hnum
      have happend : ∀ b, strtoNumber (d ++ b) = some (negative, digitsValue digits, r :: rest ++ b) :=
        fun b => strtoNumber_append hnum b hrest
      cases hends : endsNumber (r :: rest) with
      | false => rw [refused_end (happend b₁) hends, refused_end (happend b₂) hends]
      | true =>
        rw [safeStrtoull_read (happend b₁) hends, safeStrtoull_read (happend b₂) hends]
        by_cases hlarge : 2 ^ 64 ≤ digitsValue digits
        · rw [if_pos hlarge, if_pos hlarge]
        rw [if_neg hlarge, if_neg hlarge]
        by_cases htop : 2 ^ 63 ≤ (if negative then (2 ^ 64 - digitsValue digits) % 2 ^ 64 else digitsValue digits)
        · have hminus : 45 ∈ d := by
            by_contra hminus
            cases negative with
            | true => exact hminus (minus_mem hnum)
            | false =>
              simp only [Bool.false_eq_true, if_false] at htop
              refine h ⟨hzero, Or.inr (Or.inr ⟨hminus, digitsValue digits, ?_, by omega, by omega⟩)⟩
              exact denotes_iff.mpr ⟨false, _, _, hnum, hends, rfl⟩
          rw [if_pos ⟨htop, mem_append_left _ hminus⟩, if_pos ⟨htop, mem_append_left _ hminus⟩]
        · generalize (if negative then (2 ^ 64 - digitsValue digits) % 2 ^ 64 else digitsValue digits) =
            ull at htop ⊢
          rw [if_neg (fun hboth => htop hboth.1), if_neg (fun hboth => htop hboth.1)]

/-! ### `do_add_delta` -/

/-- Two memories that agree on everything but what is behind an item. -/
def SameItems (m m' : Memory) : Prop := m.item = m'.item ∧ m.chunk = m'.chunk

namespace ItemStore

/-- **Only the item matters**: in any two memories that agree on the items, the same answer and the same store. -/
def OnlyItem (cfg : Settings) (key : Bytes) (incr : Bool) (delta cas : ℕ) (s : ItemStore) : Prop :=
  ∀ m m', SameItems m m' → s.doAddDelta cfg m key incr delta cas = s.doAddDelta cfg m' key incr delta cas

/-- An item whose data is read as a number: the checks of `do_add_delta` in front of `safe_strtoull`. -/
structure ReadAsNumber (cfg : Settings) (key : Bytes) (cas : ℕ) (s : ItemStore) (it : StrItem) : Prop where
  visible : s.visible cfg key = some it
  nonempty : 2 < it.nbytes
  plain : it.chunks = none
  cas_eq : cas = 0 ∨ it.itemGetCas = cas

variable {cfg : Settings} {s : ItemStore}

/-- The lookup of `do_add_delta` returns the visible item with one more reference. -/
theorem doItemGet_fst (cfg : Settings) (s : ItemStore) (key : Bytes) (async : Bool) :
    (s.doItemGet cfg key false async).1 = (s.visible cfg key).map held := by
  unfold doItemGet visible
  cases hfind : s.assocFind cfg key with
  | none => rfl
  | some it =>
    dsimp only
    split
    · rename_i hgone
      have hgone' : s.itemIsFlushed it = true ∨ s.itemIsExpired it = true := hgone
      rw [Option.filter_some_neg]
      · rfl
      · rcases hgone' with h | h <;> simp [h]
    · rename_i hkept
      have hkept' : ¬ (s.itemIsFlushed it = true ∨ s.itemIsExpired it = true) := hkept
      rw [Option.filter_some_pos]
      · rfl
      · simpa using hkept'

theorem doItemAlloc_congr {m m' : Memory} (h : SameItems m m') (now : ℕ) (key : Bytes) (flags : UInt32)
    (exptime nbytes : ℕ) : doItemAlloc cfg m now key flags exptime nbytes =
    doItemAlloc cfg m' now key flags exptime nbytes := by
  unfold doItemAlloc
  rw [h.1]

/-- Nothing but what is read from the data distinguishes the two memories. -/
theorem doAddDelta_congr {m m' : Memory} (h : SameItems m m') {key : Bytes} {cas : ℕ}
    (hread : ∀ it, ReadAsNumber cfg key cas s it →
      readBehind it.itemData (m.beyond (held it)) = readBehind it.itemData (m'.beyond (held it)))
    (incr : Bool) (delta : ℕ) : s.doAddDelta cfg m key incr delta cas = s.doAddDelta cfg m' key incr delta cas := by
  have hfst := doItemGet_fst cfg s key false
  unfold doAddDelta
  generalize s.doItemGet cfg key false false = got at hfst
  obtain ⟨found, s₁⟩ := got
  cases hvisible : s.visible cfg key with
  | none =>
    rw [hvisible] at hfst
    obtain rfl : found = none := hfst
    rfl
  | some it =>
    rw [hvisible] at hfst
    obtain rfl : found = some (held it) := hfst
    dsimp only
    by_cases hbad : (held it).nbytes ≤ 2 ∨ (held it).chunks.isSome
    · rw [if_pos hbad, if_pos hbad]
    by_cases hcas : cas ≠ 0 ∧ (held it).itemGetCas ≠ cas
    · rw [if_neg hbad, if_neg hbad, if_pos hcas, if_pos hcas]
    have hnumber : ReadAsNumber cfg key cas s it := by
      refine ⟨hvisible, Nat.not_le.mp fun hle => hbad (Or.inl hle), ?_, ?_⟩
      · exact Option.not_isSome_iff_eq_none.mp fun hsome => hbad (Or.inr hsome)
      · by_contra hne
        rw [not_or] at hne
        exact hcas hne
    have hsame : safeStrtoull ((held it).cString m) = safeStrtoull ((held it).cString m') := hread it hnumber
    rw [hsame]
    simp only [doItemAlloc_congr h]

theorem doAddDelta_nonNumeric_iff {key : Bytes} {cas : ℕ} {it : StrItem} (h : ReadAsNumber cfg key cas s it)
    (m : Memory) (incr : Bool) (delta : ℕ) :
    (s.doAddDelta cfg m key incr delta cas).1.res = .nonNumeric ↔
      readBehind it.itemData (m.beyond (held it)) = none := by
  have hfst := doItemGet_fst cfg s key false
  rw [h.visible] at hfst
  unfold doAddDelta
  generalize s.doItemGet cfg key false false = got at hfst
  obtain ⟨found, s₁⟩ := got
  obtain rfl : found = some (held it) := hfst
  have hgood : ¬ ((held it).nbytes ≤ 2 ∨ (held it).chunks.isSome) := by
    rintro (hle | hsome)
    · exact absurd h.nonempty (Nat.not_lt.mpr hle)
    · have hplain : (held it).chunks = none := h.plain
      rw [hplain] at hsome
      cases hsome
  have hcas : ¬ (cas ≠ 0 ∧ (held it).itemGetCas ≠ cas) := by
    rintro ⟨hzero, hne⟩
    exact h.cas_eq.elim hzero hne
  have hcstr : safeStrtoull ((held it).cString m) = readBehind it.itemData (m.beyond (held it)) := rfl
  dsimp only
  rw [if_neg hgood, if_neg hcas, hcstr]
  cases readBehind it.itemData (m.beyond (held it)) with
  | none => exact iff_of_true rfl rfl
  | some value =>
    refine iff_of_false ?_ ((by intro hnone; cases hnone))
    dsimp only
    split
    · exact (by intro hres; cases hres)
    · split
      · split
        · exact (by intro hres; cases hres)
        · exact (by intro hres; cases hres)
      · exact (by intro hres; cases hres)

end ItemStore

open ItemStore

/-- **When `incr` and `decr` depend on the item only**: the data of the item they read is settled by itself. -/
theorem delta_only_item_iff (cfg : Settings) (s : ItemStore) (key : Bytes) (incr : Bool) (delta cas : ℕ) :
    OnlyItem cfg key incr delta cas s ↔ ∀ it, ReadAsNumber cfg key cas s it → ¬ DependsBehind it.itemData := by
  constructor
  · intro h it hread hdep
    obtain ⟨beyond, beyond', hnone, hsome⟩ := hdep.differs
    have hsame := h { zeroMemory with beyond := fun _ => beyond }
      { zeroMemory with beyond := fun _ => beyond' } ⟨rfl, rfl⟩
    have hrefused := (doAddDelta_nonNumeric_iff hread { zeroMemory with beyond := fun _ => beyond } incr
      delta).mpr hnone
    rw [hsame] at hrefused
    have hnone' : readBehind it.itemData beyond' = none := (doAddDelta_nonNumeric_iff hread _ incr delta).mp hrefused
    rw [hnone'] at hsome
    cases hsome
  · intro h m m' hsame
    exact doAddDelta_congr hsame (fun it hread => readBehind_const (h it hread) _ _) incr delta

/-- **`2^63` in the item**: `incr` works with zeros behind the item, and is refused when a minus sign is there.  One
space in the item is no number with zeros behind it, but it is incremented to 8 when a 7 is there. -/
theorem incr_reads_behind :
    (storeText (itoa (2 ^ 63))).map (fun s =>
        ((s.doAddDelta smallChunks zeroMemory [97] true 1 0).1.res,
          (s.doAddDelta smallChunks { zeroMemory with beyond := fun _ => [45] } [97] true 1 0).1.res))
      = some (.ok, .nonNumeric) ∧
    (storeText [32]).map (fun s =>
        ((s.doAddDelta smallChunks zeroMemory [97] true 1 0).1.res,
          (s.doAddDelta smallChunks { zeroMemory with beyond := fun _ => [55] } [97] true 1 0).1.buf))
      = some (.nonNumeric, itoa 8) := by
  decide +kernel

end BmcCache
